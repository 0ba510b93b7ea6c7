import Verigov.Exhaustion

/-!
# An id shared by two projects

With the proposal counter at its limit, the last id goes from a proposal of one
project to a proposal of another, and takes its votes along. The auditor of
project `0` is a trustee of project `1`: its aye on the first proposal stands as
its vote on the second, while the tally of the trustees has not counted it. When
the trustee votes, an aye that was never added is taken back.
-/

namespace Verigov.Mock

open State

variable {s s' : State Test} {info : ProjectInfo} {n : Nat} {v : Nat → Option Bool}

def auditor : Stakeholder := ⟨.securityAuditor, 1000⟩
def trustee : Stakeholder := ⟨.communityTrustee, 1000⟩

/-- Project `1`: more than half of the stake of its two trustees has to approve. -/
def trustees : Action Test :=
  .call .root (.projectGenesis ⟨[0x62], by decide⟩
    ⟨[⟨1, .coreDeveloper, 1000⟩, ⟨6, .communityTrustee, 1000⟩, ⟨7, .communityTrustee, 1000⟩,
      ⟨8, .buildService, 1000⟩], by decide⟩
    { requiredRoles := ⟨[⟨.communityTrustee, percent 60⟩], by simp [maxRequiredRoles]⟩
      votingPeriod := 100
      enactmentDelay := 2 }
    { sigmaNeg := half, sigmaMal := percent 90, deltaMax := 1000 } 0)

def twoProjects : State Test := after [genesis .coreDeveloper half 2 0, trustees]

/-- Proposal `u32Max` is one of project `1`, in voting; `v` has the votes of the
trustees on that id and `n` is what their tally counts as ayes. -/
structure Shared (v : Nat → Option Bool) (n : Nat) (s : State Test) : Prop where
  proposal : ∃ pr, s.proposals.get u32Max = some pr ∧ pr.projectId = 1 ∧ pr.status = .voting ∧
    s.blockNumber ≤ pr.votingEnds
  project : ∃ info, s.projects.get 1 = some info ∧
    info.policy.requiredRoles.val = [⟨.communityTrustee, percent 60⟩]
  trustee : ∀ a ∈ [6, 7], s.stakeholders.get (1, a) = some trustee
  stake : s.roleStakeOf 1 .communityTrustee = 2000
  slot : ∀ b, s.pendingAt b = .empty
  vote : ∀ a ∈ [6, 7], s.votes.get (u32Max, a) = v a
  tally : s.tallyOf u32Max .communityTrustee = { ayes := n }

theorem Shared.tally_record (h : Shared v n s) (ha : a ∈ [6, 7]) :
    (recordVote (T := Test) u32Max a Mock.trustee true s).tallyOf u32Max .communityTrustee =
      { ayes := saturatingAdd u64Max (if v a = some true then n - 1000 else n) 1000 } := by
  refine (tallyOf_recordVote (T := Test) s u32Max a Mock.trustee true).trans ?_
  show RoleTally.record _ _ _ _ (s.tallyOf u32Max .communityTrustee) = _
  rw [h.vote a ha, h.tally]
  rcases v a with _ | _ | _ <;> simp [RoleTally.record, Mock.trustee]

theorem Shared.meetsQuorums (h : Shared v n s)
    (hroles : info.policy.requiredRoles.val = [⟨.communityTrustee, percent 60⟩]) :
    meetsQuorums 1 info u32Max s = RoleQuorum.met ⟨.communityTrustee, percent 60⟩ 2000 n := by
  simp [Verigov.meetsQuorums, hroles, h.stake, h.tally]

def ayesAfter (v : Nat → Option Bool) (n a : Nat) : Nat :=
  saturatingAdd u64Max (if v a = some true then n - 1000 else n) 1000

theorem Shared.record (h : Shared v n s) (ha : a ∈ [6, 7]) :
    Shared (Function.update v a (some true)) (ayesAfter v n a)
      (recordVote (T := Test) u32Max a Mock.trustee true s) where
  proposal := h.proposal
  project := h.project
  trustee := h.trustee
  stake := h.stake
  slot := h.slot
  vote b hb := by
    refine (StorageMap.get_insert ..).trans ?_
    by_cases hab : b = a
    · simp [hab]
    · simp [hab, h.vote b hb]
  tally := h.tally_record ha

theorem Shared.vote_eq (h : Shared v n s) (ha : a ∈ [6, 7]) :
    ∃ info, info.policy.requiredRoles.val = [⟨.communityTrustee, percent 60⟩] ∧
      Verigov.vote (T := Test) (.signed a) u32Max true s =
        doVote (T := Test) u32Max 1 info a Mock.trustee true s.blockNumber s := by
  obtain ⟨pr, hpr, hp, hst, hends⟩ := h.proposal
  obtain ⟨info, hproj, hroles⟩ := h.project
  refine ⟨info, hroles, ?_⟩
  rw [← hp] at hproj
  have hvoter : s.stakeholders.get (pr.projectId, a) = some Mock.trustee := hp ▸ h.trustee a ha
  have hv := vote_of (T := Test) hpr (by rw [hst]; rfl) hends hproj hvoter true
  rwa [hp] at hv

theorem Shared.vote_short (h : Shared v n s) (ha : a ∈ [6, 7])
    (hmet : RoleQuorum.met ⟨.communityTrustee, percent 60⟩ 2000 (ayesAfter v n a) = false) :
    ∃ s', Verigov.vote (T := Test) (.signed a) u32Max true s = .ok s' ∧
      Shared (Function.update v a (some true)) (ayesAfter v n a) s' := by
  obtain ⟨info, hroles, heq⟩ := h.vote_eq ha
  obtain ⟨pr, hpr, -, hst, -⟩ := h.proposal
  refine ⟨_, heq.trans (doVote_of_not_met hpr hst ?_), h.record ha⟩
  rw [(h.record ha).meetsQuorums hroles, hmet]

theorem Shared.vote_approves (h : Shared v n s) (ha : a ∈ [6, 7])
    (hmet : RoleQuorum.met ⟨.communityTrustee, percent 60⟩ 2000 (ayesAfter v n a) = true) :
    ∃ s' pr enactAt, Verigov.vote (T := Test) (.signed a) u32Max true s = .ok s' ∧
      s'.proposals.get u32Max = some pr ∧ pr.status = .approved enactAt ∧
      s'.tallyOf u32Max .communityTrustee = { ayes := ayesAfter v n a } := by
  obtain ⟨info, hroles, heq⟩ := h.vote_eq ha
  obtain ⟨pr, hpr, -, hst, -⟩ := h.proposal
  have hids : ∀ b, (s.pendingAt b).tryPush u32Max = some (only u32Max) := by
    intro b
    rw [h.slot b]
    exact tryPush_empty u32Max
  have hv := doVote_of_met hpr hst (by rw [(h.record ha).meetsQuorums hroles, hmet])
    (hids (saturatingAdd u64Max s.blockNumber info.policy.enactmentDelay))
  have hget : (recordVote (T := Test) u32Max a Mock.trustee true s).proposals.get u32Max =
      some pr := hpr
  exact ⟨_, _, _, heq.trans hv, (approve_get ..).trans (withStatus_self hget _), rfl,
    (h.record ha).tally⟩

-- ---------------------------------------------------------------------------
-- How it comes about
-- ---------------------------------------------------------------------------

theorem Filing.audit (h : Filing u32Max info s) (bal : Test.currency.Ledger)
    (hsix : s.stakeholders.get (0, (6 : Nat)) = some auditor) :
    perform (Mock.vote 6 u32Max true) (Mock.filed info bal s) =
      some (recordVote (T := Test) u32Max (6 : Nat) auditor true (Mock.filed info bal s)) := by
  have hget : (Mock.filed info bal s).proposals.get u32Max = some (release info s) :=
    h.next ▸ filed_get info bal s
  generalize hv : recordVote (T := Test) u32Max (6 : Nat) auditor true (Mock.filed info bal s) = m
  have hp : TwoOfThree info m := hv ▸ h.congr rfl rfl rfl
  have htally : m.tallyOf u32Max .coreDeveloper = { ayes := 1000 } := by
    rw [← hv]
    exact (tallyOf_recordVote_other _ _ _ _ _ (by simp [auditor])).trans (h.tally_filed bal)
  have hmet : meetsQuorums 0 info u32Max
      (recordVote (T := Test) u32Max (6 : Nat) auditor true (Mock.filed info bal s)) = false := by
    rw [hv, hp.meetsQuorums (congrArg RoleTally.ayes htally)]
    decide
  have hcall := (vote_of (T := Test) hget rfl h.votingOpen h.project hsix true).trans
    (doVote_of_not_met hget rfl hmet)
  exact (congrArg Except.toOption hcall).trans (congrArg some hv)

def onlySix (a : Nat) : Option Bool := if a = 6 then some true else none

/-- Project `1` has filed nothing, and of its trustees the sixth account has a vote on
the last id, which the counter gives out next. -/
structure Audited (info : ProjectInfo) (s : State Test) : Prop where
  roles : info.policy.requiredRoles.val = [⟨.communityTrustee, percent 60⟩]
  bond : info.proposalBond = 0
  project : s.projects.get 1 = some info
  first : s.stakeholders.get (1, (1 : Nat)) = some developer
  builder : s.stakeholders.get (1, (8 : Nat)) = some ⟨.buildService, 1000⟩
  trustee : ∀ a ∈ [6, 7], s.stakeholders.get (1, a) = some trustee
  stake : s.roleStakeOf 1 .communityTrustee = 2000
  next : s.nextProposalId = u32Max
  block : s.blockNumber = 1
  slot : ∀ b, s.pendingAt b = .empty
  vote : ∀ a ∈ [6, 7], s.votes.get (u32Max, a) = onlySix a
  tally : s.tallyOf u32Max .communityTrustee = {}
  funds : Solvent s.balances

theorem Filing.audited (h : Filing u32Max info s) (hf : FilingFrame twoProjects s)
    (hfunds : Solvent bal) :
    ∃ info', Audited info'
      (recordVote (T := Test) u32Max (6 : Nat) auditor true (Mock.filed info bal s)) := by
  obtain ⟨info', hproj, hinfo⟩ := Option.map_eq_some_iff.mp (show (twoProjects.projects.get 1).map
    (fun info => (info.policy.requiredRoles.val, info.proposalBond)) =
      some ([⟨.communityTrustee, percent 60⟩], 0) by decide +kernel)
  simp only [Prod.mk.injEq] at hinfo
  have hst : ∀ a x, twoProjects.stakeholders.get (1, a) = some x →
      s.stakeholders.get (1, a) = some x := fun a x hx => hf.stakeholders ▸ hx
  have hstake : s.roleStakeOf 1 .communityTrustee = 2000 := by
    unfold roleStakeOf
    rw [hf.roleStake]
    decide +kernel
  have htally : s.tallyOf u32Max .communityTrustee = {} :=
    (hf.tally u32Max _ (by decide)).trans (by decide +kernel)
  refine ⟨info', {
    roles := hinfo.1
    bond := hinfo.2
    project := (congrArg (StorageMap.get · 1) hf.projects).trans hproj
    first := hst 1 developer (by decide +kernel)
    builder := hst 8 ⟨.buildService, 1000⟩ (by decide +kernel)
    trustee := fun a ha => hst a Mock.trustee ?_
    stake := hstake
    next := h.next_filed bal
    block := h.block
    slot := h.slot
    vote := fun a ha => ?_
    tally := ?_
    funds := hfunds }⟩
  · simp only [List.mem_cons, List.not_mem_nil, or_false] at ha
    rcases ha with rfl | rfl <;> decide +kernel
  · refine (StorageMap.get_insert ..).trans ?_
    simp only [List.mem_cons, List.not_mem_nil, or_false] at ha
    rcases ha with rfl | rfl
    · rfl
    · -- The seventh account is not in project `0`, and the id is not used before.
      refine (if_neg (by simp)).trans ?_
      refine (StorageMap.get_insert_ne _ _ (by simp)).trans ?_
      exact h.vote u32Max 7 (Nat.le_refl _)
  · refine (tallyOf_recordVote_other _ _ _ _ _ (by simp [auditor])).trans ?_
    exact (tallyOf_recordVote_other _ _ _ _ _ (by simp [developer])).trans htally

theorem Audited.share (h : Audited info s) :
    ∃ t, perform (proposeIn 1 8 2) s = some t ∧ Shared onlySix 0 t ∧
      t.stakeholders = s.stakeholders ∧ t.projects = s.projects := by
  obtain ⟨bal, -, hb⟩ := perform_proposeIn 2 h.project h.bond h.first rfl h.builder rfl h.funds
  generalize hpr : newProposal (T := Test) info (1 : Nat) 1 version (attestation 8 2) (Mock.h 0x42)
    s = pr at hb
  have hget : (addProposal (T := Test) pr bal s).proposals.get u32Max = some pr := by
    rw [← h.next]
    exact addProposal_get_self
  have hends : s.blockNumber ≤ pr.votingEnds := by
    rw [← hpr]
    show s.blockNumber ≤ saturatingAdd u64Max s.blockNumber info.policy.votingPeriod
    rw [h.block]
    unfold saturatingAdd u64Max
    omega
  have hshared : Shared onlySix 0 (recordVote (T := Test) u32Max (1 : Nat) developer true
      (addProposal (T := Test) pr bal s)) := {
    proposal := ⟨pr, hget, hpr ▸ rfl, hpr ▸ rfl, hends⟩
    project := ⟨info, h.project, h.roles⟩
    trustee := h.trustee
    stake := h.stake
    slot := h.slot
    vote := fun a ha => by
      refine (StorageMap.get_insert_ne _ _ ?_).trans (h.vote a ha)
      rintro ⟨⟩
      simp at ha
    tally := (tallyOf_recordVote_other _ _ _ _ _ (by simp [developer])).trans h.tally }
  refine ⟨_, hb.trans ?_, hshared, rfl, rfl⟩
  rw [h.next, doVote_of_not_met hget (hpr ▸ rfl)
    ((hshared.meetsQuorums h.roles).trans (by decide))]
  rfl

theorem filing_twoProjects : ∃ info, Filing 0 info twoProjects :=
  Unfiled.filing (by decide +kernel) (reaches _)

theorem exists_shared :
    ∃ tr s, exec ([genesis .coreDeveloper (percent 50) 2 0, trustees] ++
        List.replicate u32Max (propose 8 1) ++
        [propose 8 1, vote 6 u32Max true, proposeIn 1 8 2]) start = some (tr, s) ∧
      Reaches tr s ∧ Shared onlySix 0 s ∧ s.stakeholders = twoProjects.stakeholders ∧
      s.projects = twoProjects.projects := by
  obtain ⟨info, hgenesis⟩ := filing_twoProjects
  obtain ⟨tr, s, h1, hs, hframe⟩ := hgenesis.run
  obtain ⟨bal, hfunds, hfile⟩ := hs.propose
  have hsix : s.stakeholders.get (0, (6 : Nat)) = some auditor := by
    rw [hframe.stakeholders]
    decide +kernel
  obtain ⟨info', haudited⟩ := hs.audited hframe hfunds
  obtain ⟨t, hshare, ht, hst, hproj⟩ := haudited.share
  have h2 : exec [propose 8 1, vote 6 u32Max true, proposeIn 1 8 2] s = some
      ([(s, propose 8 1), (Mock.filed info bal s, vote 6 u32Max true),
        (recordVote (T := Test) u32Max (6 : Nat) auditor true (Mock.filed info bal s),
          proposeIn 1 8 2)], t) := by
    simp [exec, hfile, hs.audit bal hsix, hshare]
  have hexec := exec_append (exec_append (exec_after _) h1) h2
  exact ⟨_, t, hexec, ⟨_, init_start, exec_run hexec⟩, ht, hst.trans hframe.stakeholders,
    hproj.trans hframe.projects⟩

end Verigov.Mock
