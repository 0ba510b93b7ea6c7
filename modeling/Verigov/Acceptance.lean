import Verigov.Collateral

/-!
# Status and acceptance rule

Eq. 1 is evaluated when a vote is cast and when the hook settles a proposal. Its
denominator also changes in between: a counter-attestation against a sibling
lowers the stake of the build services, and the other proposals of the project
keep the status they have. As long as no slash turns Eq. 1 over for another open
proposal, the open statuses are Eq. 1: approved where it holds, voting where it
does not.
-/

namespace Verigov

open State Transition

variable {T : Config} {s s' : State T} {id : Nat}

def AgreesAt (s : State T) (id : Nat) : Prop :=
  ∀ pr info, s.proposals.get id = some pr → s.projects.get pr.projectId = some info →
    pr.status.isOpen = true →
    ((∃ enactAt, pr.status = .approved enactAt) ↔ meetsQuorums pr.projectId info id s = true)

def RoleQuorum.Short (rq : RoleQuorum) (total ayes : Nat) : Prop :=
  total = 0 ∨ saturatingMul u128Max (saturatedInto u128Max ayes) Perbill.accuracy <
    saturatingMul u128Max rq.quorum.deconstruct (saturatedInto u128Max total)

instance (rq : RoleQuorum) (total ayes : Nat) : Decidable (rq.Short total ayes) := by
  unfold RoleQuorum.Short
  infer_instance

/-- Proposal `id` stays on its side of Eq. 1 if the build services of project `p`
lose `n` of their stake: an approved one if they have some left, one in voting if
a required role is short of the quorum of what is left. -/
def StaysOnSide (s : State T) (p : Nat) (info : ProjectInfo) (n id : Nat) : ProposalStatus → Prop
  | .approved _ => n < s.roleStakeOf p .buildService
  | _ => ∃ rq ∈ info.policy.requiredRoles.val,
      rq.Short (s.roleStakeOf p rq.role - if rq.role = .buildService then n else 0)
        (s.tallyOf id rq.role).ayes

instance (s : State T) (p : Nat) (info : ProjectInfo) (n id : Nat) (status : ProposalStatus) :
    Decidable (StaysOnSide s p info n id status) := by
  cases status <;> unfold StaysOnSide <;> infer_instance

/-- A counter-attestation takes nothing, or from a role that is not required, or
every other open proposal of the project stays on its side of Eq. 1. -/
def SlashKeepsQuorums (s : State T) (a : Action T) : Prop :=
  ∀ id ∈ a.challenged, ∀ pr ∈ s.proposals.get id, ∀ info ∈ s.projects.get pr.projectId,
    ∀ y ∈ s.stakeholders.get (pr.projectId, pr.attestation.builder),
      info.slashing.sigmaNeg.mulFloor y.stake = 0 ∨
      (∀ rq ∈ info.policy.requiredRoles.val, rq.role ≠ .buildService) ∨
      ∀ id' pr', s.proposals.get id' = some pr' → id' ≠ id → pr'.projectId = pr.projectId →
        pr'.status.isOpen = true →
        StaysOnSide s pr.projectId info (info.slashing.sigmaNeg.mulFloor y.stake) id' pr'.status

instance (s : State T) (a : Action T) : Decidable (SlashKeepsQuorums s a) := by
  unfold SlashKeepsQuorums
  infer_instance

-- ---------------------------------------------------------------------------
-- The rule
-- ---------------------------------------------------------------------------

/-- Eq. 1 without the demand that there is a stake at all. -/
def Quorate (p : Nat) (info : ProjectInfo) (id : Nat) (s : State T) : Prop :=
  ∀ rq ∈ info.policy.requiredRoles.val,
    saturatingMul u128Max rq.quorum.deconstruct
        (saturatedInto u128Max (s.roleStakeOf p rq.role)) ≤
      saturatingMul u128Max (saturatedInto u128Max (s.tallyOf id rq.role).ayes) Perbill.accuracy

theorem meetsQuorums_iff : meetsQuorums p info id s = true ↔
    Quorate p info id s ∧
      ∀ rq ∈ info.policy.requiredRoles.val, s.roleStakeOf p rq.role ≠ 0 := by
  simp only [meetsQuorums, List.all_eq_true, RoleQuorum.met_eq_true, Quorate]
  exact ⟨fun h => ⟨fun rq hrq => (h rq hrq).2, fun rq hrq => (h rq hrq).1⟩,
    fun h rq hrq => ⟨h.2 rq hrq, h.1 rq hrq⟩⟩

theorem Quorate.of_le (h : Quorate p info id s)
    (hstake : ∀ r, s'.roleStakeOf p r ≤ s.roleStakeOf p r)
    (htally : ∀ r, s'.tallyOf id r = s.tallyOf id r) : Quorate p info id s' := by
  intro rq hrq
  rw [htally]
  refine Nat.le_trans ?_ (h rq hrq)
  exact saturatingMul_mono (Nat.le_refl _) (saturatedInto_mono (hstake rq.role))

theorem RoleQuorum.short_iff {rq : RoleQuorum} {total ayes : Nat} :
    rq.Short total ayes ↔ rq.met total ayes = false := by
  rw [← Bool.not_eq_true, RoleQuorum.met_eq_true, not_and, RoleQuorum.Short]
  constructor
  · rintro (h0 | hlt) hne
    · exact absurd h0 hne
    · exact Nat.not_le.mpr hlt
  · intro h
    by_cases h0 : total = 0
    · exact .inl h0
    · exact .inr (Nat.not_le.mp (h h0))

theorem meetsQuorums_congr_required
    (hr : ∀ rq ∈ info.policy.requiredRoles.val, s'.roleStakeOf p rq.role = s.roleStakeOf p rq.role)
    (ht : ∀ r, s'.tallyOf id r = s.tallyOf id r) :
    meetsQuorums p info id s' = meetsQuorums p info id s := by
  rw [Bool.eq_iff_iff]
  simp only [meetsQuorums, List.all_eq_true, ht]
  refine forall₂_congr fun rq hrq => ?_
  rw [hr rq hrq]

-- ---------------------------------------------------------------------------
-- Steps
-- ---------------------------------------------------------------------------

theorem AgreesAt.of_same (h : AgreesAt s id) (hpr : s'.proposals.get id = s.proposals.get id)
    (hproj : ∀ pr, s.proposals.get id = some pr →
      s'.projects.get pr.projectId = s.projects.get pr.projectId)
    (hmet : ∀ pr info, s.proposals.get id = some pr → s.projects.get pr.projectId = some info →
      pr.status.isOpen = true →
      meetsQuorums pr.projectId info id s' = meetsQuorums pr.projectId info id s) :
    AgreesAt s' id := by
  intro pr info hpr' hproj' ho
  rw [hpr] at hpr'
  rw [hproj pr hpr'] at hproj'
  rw [hmet pr info hpr' hproj' ho]
  exact h pr info hpr' hproj' ho

theorem doVote_agreesAt (h : doVote id p info who voter aye now s = .ok s')
    (hpr : s.proposals.get id = some pr) (hp : pr.projectId = p)
    (hproj : s.projects.get p = some info) : AgreesAt s' id := by
  subst hp
  have hprojs := (doVote_frame h).projects
  have hget : (recordVote id who voter aye s).proposals.get id = some pr := hpr
  intro pr' info' hpr' hproj' ho
  obtain ⟨pr0, hpr0, ⟨-, hmet, ids, -, rfl⟩ | ⟨e, -, hmet, rfl⟩ | ⟨rfl, hvoting, happ⟩⟩ :=
    doVote_ok h
  · rw [approve_get, withStatus_self hget] at hpr'
    cases hpr'
    rw [hprojs, hproj] at hproj'
    cases hproj'
    exact ⟨fun _ => hmet, fun _ => ⟨_, rfl⟩⟩
  · rw [revokeApproval_get, withStatus_self hget] at hpr'
    cases hpr'
    rw [hprojs, hproj] at hproj'
    cases hproj'
    constructor
    · rintro ⟨_, ⟨⟩⟩
    · intro hmet'
      exact absurd (hmet.symm.trans hmet') (by simp)
  · rw [hpr] at hpr0
    cases hpr0
    rw [hget] at hpr'
    cases hpr'
    rw [hprojs, hproj] at hproj'
    cases hproj'
    constructor
    · rintro ⟨e, hst⟩
      exact happ e hst
    · intro hmet'
      cases hst : pr.status with
      | approved e => exact ⟨e, rfl⟩
      | voting =>
        rw [hvoting hst] at hmet'
        cases hmet'
      | _ => simp [hst, ProposalStatus.isOpen] at ho

theorem doVote_meetsQuorums (h : doVote id p info who voter aye now s = .ok s') {id' : Nat}
    (hid : id' ≠ id) :
    meetsQuorums q info' id' s' = meetsQuorums q info' id' s := by
  apply meetsQuorums_congr <;> intro r
  · unfold roleStakeOf
    rw [(doVote_frame h).roleStake]
  · unfold tallyOf
    rw [(doVote_votes h).2]
    refine (StorageMap.getD_insert ..).trans (if_neg ?_)
    simp [hid]

theorem newRelease_agreesAt (h : newRelease origin p version att cid sig s = .ok s')
    (hs : AgreesAt s id) : AgreesAt s' id := by
  obtain ⟨who, info, x, y, balances, -, hproj, -, -, -, -, -, -, hv⟩ := newRelease_ok h
  by_cases hid : id = s.nextProposalId
  · subst hid
    exact doVote_agreesAt hv addProposal_get_self rfl hproj
  · refine hs.of_same (newRelease_other h hid) (fun pr _ => ?_) fun pr info' _ _ _ => ?_
    · rw [(doVote_frame hv).projects]
      rfl
    · rw [doVote_meetsQuorums hv hid]
      rfl

theorem vote_agreesAt (h : vote origin id' aye s = .ok s') (hs : AgreesAt s id) :
    AgreesAt s' id := by
  obtain ⟨who, pr, info, x, -, hpr, -, -, hproj, -, hv⟩ := vote_ok h
  by_cases hid : id = id'
  · subst hid
    exact doVote_agreesAt hv hpr rfl hproj
  · refine hs.of_same (doVote_get hv id hid) (fun pr _ => ?_) fun pr info' _ _ _ => ?_
    · rw [(doVote_frame hv).projects]
    · exact doVote_meetsQuorums hv hid

theorem Slashes.meetsQuorums_iff (hsl : Slashes s id' s' pr info y n)
    (hside : StaysOnSide s pr.projectId info n id status) (ho : status.isOpen = true)
    (ht : ∀ r, s'.tallyOf id r = s.tallyOf id r)
    (h : (∃ e, status = .approved e) ↔ meetsQuorums pr.projectId info id s = true) :
    (∃ e, status = .approved e) ↔ meetsQuorums pr.projectId info id s' = true := by
  have hstake : ∀ r, s'.roleStakeOf pr.projectId r = s.roleStakeOf pr.projectId r -
      if r = .buildService then n else 0 := by
    intro r
    rw [hsl.roleStakeOf_eq]
    by_cases hr : r = .buildService <;> simp [hr]
  cases status with
  | approved e =>
    obtain ⟨hquorate, hzero⟩ := Verigov.meetsQuorums_iff.mp (h.mp ⟨e, rfl⟩)
    refine iff_of_true ⟨e, rfl⟩ (Verigov.meetsQuorums_iff.mpr ⟨?_, fun rq hrq => ?_⟩)
    · exact hquorate.of_le (fun r => (hstake r).trans_le (Nat.sub_le _ _)) ht
    · rw [hstake]
      split
      · rename_i hr
        rw [hr]
        exact Nat.sub_ne_zero_of_lt hside
      · exact hzero rq hrq
  | voting =>
    obtain ⟨rq, hrq, hshort⟩ := hside
    refine iff_of_false (by rintro ⟨_, ⟨⟩⟩) fun hmet => ?_
    have hrole := List.all_eq_true.mp hmet rq hrq
    rw [hstake, ht, RoleQuorum.short_iff.mp hshort] at hrole
    cases hrole
  | _ => cases ho

theorem Slashes.agreesAt (hburn : T.currency.BurnExact) (he : Escrowed s)
    (hk : SlashKeepsQuorums s a) (hc : a.challenged = some id')
    (hsl : Slashes s id' s' pr info y n) (hprojs : s'.projects = s.projects)
    (htallies : s'.tallies = s.tallies) (hs : AgreesAt s id) : AgreesAt s' id := by
  have ht : ∀ r, s'.tallyOf id r = s.tallyOf id r := by
    intro r
    unfold tallyOf
    rw [htallies]
  intro pr' info' hpr' hproj ho
  by_cases hid : id = id'
  · subst hid
    rw [hsl.proposals, StorageMap.get_insert_self] at hpr'
    cases hpr'
    cases ho
  rw [hsl.proposals, StorageMap.get_insert_ne _ _ hid] at hpr'
  rw [hprojs] at hproj
  have hiff := hs pr' info' hpr' hproj ho
  -- Unless the slash changes the stake of a required role, Eq. 1 reads what it read.
  have hsame : (∀ rq ∈ info'.policy.requiredRoles.val,
      s'.roleStakeOf pr'.projectId rq.role = s.roleStakeOf pr'.projectId rq.role) →
      ((∃ e, pr'.status = .approved e) ↔ meetsQuorums pr'.projectId info' id s' = true) := by
    intro hr
    rw [meetsQuorums_congr_required hr ht]
    exact hiff
  by_cases hp : pr'.projectId = pr.projectId
  · rw [hp, hsl.project] at hproj
    cases hproj
    obtain ⟨b, hburned⟩ := hsl.burned
    obtain ⟨rfl, -⟩ := he.burn hburn hsl.builder hburned
    rcases hk id' hc pr hsl.proposal info hsl.project y hsl.builder with h0 | hno | hside
    · refine hsame fun rq _ => ?_
      rw [hsl.roleStakeOf_eq, h0]
      split
      · rename_i hr
        rw [hr.1, hr.2]
        rfl
      · rfl
    · refine hsame fun rq hrq => ?_
      rw [hsl.roleStakeOf_eq, if_neg fun hr => hno rq hrq hr.2]
    · rw [hp] at hiff ⊢
      exact hsl.meetsQuorums_iff (hside id pr' hpr' hid hp ho) ho ht hiff
  · refine hsame fun rq _ => ?_
    rw [hsl.roleStakeOf_eq, if_neg fun hr => hp hr.1]

theorem nextBlock_agreesAt (hs : AgreesAt s id) : AgreesAt (nextBlock s) id := by
  have hfr := (nextBlock_frame s).1
  rcases nextBlock_proposal s id with hsame | ⟨-, pr', hpr', hset⟩
  · exact hs.of_same hsame (fun pr _ => by rw [hfr.projects]) fun pr info _ _ _ => hfr.meetsQuorums
  · intro pr info hpr hproj ho
    rw [hpr'] at hpr
    cases hpr
    rw [hfr.projects] at hproj
    rw [hfr.meetsQuorums]
    cases hset with
    | enacted => cases ho
    | revoked _ _ hproj' hmet =>
      rw [hproj'] at hproj
      cases hproj
      simp [hmet]

theorem Step.agreesAt (hburn : T.currency.BurnExact) (h : Step s a s') (hf : FreshProject s a)
    (hk : SlashKeepsQuorums s a) (hp : HasProject s) (he : Escrowed s) (hs : AgreesAt s id) :
    AgreesAt s' id := by
  cases h with
  | block => exact nextBlock_agreesAt hs
  | failed => exact hs
  | other => exact hs.of_same rfl (fun _ _ => rfl) fun _ _ _ _ _ => rfl
  | call origin c h =>
    cases c with
    | projectGenesis name xs policy slashing bond =>
      have hst : Step s (.call origin (.projectGenesis name xs policy slashing bond)) s' :=
        .call origin _ h
      obtain ⟨s1, -, -, hs1, -, rfl⟩ := projectGenesis_ok h
      have hfr := registerAll_frame hs1
      refine hs.of_same (by rw [← hfr.proposals]; rfl)
        (fun pr hpr => hst.projects_get hf (hp id pr hpr)) fun pr info hpr hproj _ => ?_
      have hne : pr.projectId ≠ s.nextProjectId := by
        intro heq
        rw [heq, hf rfl] at hproj
        cases hproj
      apply meetsQuorums_congr <;> intro r
      · exact (registerAll_other hs1 hne).2.1 r
      · have ht : s1.tallyOf id r = s.tallyOf id r := by
          unfold tallyOf
          rw [hfr.tallies]
        exact ht
    | newRelease p version att cid sig => exact newRelease_agreesAt h hs
    | vote id' aye => exact vote_agreesAt h hs
    | submitCounterAttestation id' rebuilt =>
      obtain ⟨pr, info, y, n, hsl⟩ := submitCounterAttestation_slashes h
      have hframe := submitCounterAttestation_frame h
      exact hsl.agreesAt hburn he hk rfl hframe.projects hframe.tallies hs
    | closeExpired id' =>
      obtain ⟨who, pr, released, balances, -, hpr, -, -, -, rfl⟩ := closeExpired_ok h
      by_cases hid : id = id'
      · subst hid
        intro pr' info' hpr' _ ho
        simp only [depositEvent, StorageMap.get_insert_self, Option.some.injEq] at hpr'
        subst hpr'
        cases ho
      · exact hs.of_same (StorageMap.get_insert_ne _ _ hid) (fun _ _ => rfl)
          fun _ _ _ _ _ => rfl

-- ---------------------------------------------------------------------------
-- Runs
-- ---------------------------------------------------------------------------

/-- In a run in which no project id is reused and no slash turns Eq. 1 over for
another open proposal, every open proposal is approved iff it meets the
quorums, and `close_expired` finds only proposals that do not. -/
theorem status_agrees (hhold : T.currency.HoldExact) (hburn : T.currency.BurnExact)
    (hrel : T.currency.ReleaseKeepsReasons) (h : Reaches tr s) (hf : Along FreshProject tr)
    (hk : Along SlashKeepsQuorums tr) :
    (∀ id pr info, s.proposals.get id = some pr → s.projects.get pr.projectId = some info →
      pr.status.isOpen = true →
      ((∃ enactAt, pr.status = .approved enactAt) ↔
        meetsQuorums pr.projectId info id s = true)) ∧
    ∀ origin id s' pr info, closeExpired origin id s = .ok s' → s.proposals.get id = some pr →
      s.projects.get pr.projectId = some info → meetsQuorums pr.projectId info id s = false := by
  have hagrees : ∀ id, AgreesAt s id := by
    intro id
    refine h.induct (I := fun _ t => AgreesAt t id) (hf.and hk) ?_ ?_
    · rintro _ ⟨n, b, rfl, -⟩ pr info hpr
      simp at hpr
    · intro tr m a t hr _ hst hfresh hm
      exact hst.agreesAt hburn hfresh.1 hfresh.2 hr.hasProject (hr.escrowed hhold hburn hrel) hm
  refine ⟨hagrees, fun origin id s' pr info hclose hpr hproj => ?_⟩
  obtain ⟨who, pr', _, _, -, hpr', hst, -⟩ := closeExpired_ok hclose
  rw [hpr] at hpr'
  cases hpr'
  have hiff := hagrees id pr info hpr hproj (by rw [hst]; rfl)
  rw [hst] at hiff
  simpa using hiff

theorem status_agrees_slashed :
    let as := [Mock.genesis .buildService (Mock.percent 50) 10 0, Mock.propose 8 1,
      Mock.vote 8 0 true, Mock.propose 9 2, Mock.challenge 1 3]
    Along SlashKeepsQuorums (Mock.trace as) ∧
      ∃ pr info, (Mock.after as).proposals.get 0 = some pr ∧
        (Mock.after as).projects.get pr.projectId = some info ∧ pr.status = .approved 11 ∧
        meetsQuorums pr.projectId info 0 (Mock.after as) = true := by
  intro as
  have hk : Along SlashKeepsQuorums (Mock.trace as) := by decide +kernel
  have h := status_agrees Ledger.holdExact Ledger.burnExact Ledger.releaseKeepsReasons
    (Mock.reaches as) (by decide +kernel) hk
  obtain ⟨pr, hpr, hfields⟩ := Option.map_eq_some_iff.mp (show ((Mock.after as).proposals.get 0).map
    (fun pr => (pr.projectId, pr.status)) = some (0, .approved 11) by decide +kernel)
  obtain ⟨info, hproj⟩ := Option.isSome_iff_exists.mp
    (show ((Mock.after as).projects.get 0).isSome by decide +kernel)
  simp only [Prod.mk.injEq] at hfields
  obtain ⟨hp, hst⟩ := hfields
  rw [← hp] at hproj
  exact ⟨hk, pr, info, hpr, hproj, hst,
    (h.1 0 pr info hpr hproj (by rw [hst]; rfl)).mp ⟨11, hst⟩⟩

/-- Half of the build services approve, short of the quorum of 60%. The slash of
the other half leaves them with two thirds, and the proposal in voting. -/
theorem status_disagrees_after_slash :
    let s := Mock.after [Mock.genesis .buildService (Mock.percent 60) 10 0, Mock.propose 8 1,
      Mock.vote 8 0 true, Mock.propose 9 2, Mock.challenge 1 3]
    Reachable s ∧ ∃ pr info, s.proposals.get 0 = some pr ∧
      s.projects.get pr.projectId = some info ∧ pr.status = .voting ∧
      meetsQuorums pr.projectId info 0 s = true := by
  intro s
  obtain ⟨pr, hpr, hfields⟩ := Option.map_eq_some_iff.mp (show (s.proposals.get 0).map
    (fun pr => (pr.projectId, pr.status)) = some (0, .voting) by decide +kernel)
  obtain ⟨info, hproj, hmet⟩ := Option.map_eq_some_iff.mp (show (s.projects.get 0).map
    (fun info => meetsQuorums 0 info 0 s) = some true by decide +kernel)
  simp only [Prod.mk.injEq] at hfields
  obtain ⟨hp, hst⟩ := hfields
  rw [← hp] at hproj
  exact ⟨⟨_, Mock.reaches _⟩, pr, info, hpr, hproj, hst, by rw [hp]; exact hmet⟩

end Verigov
