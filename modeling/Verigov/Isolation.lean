import Verigov.Exhaustion

/-!
# Projects and each other's votes

What a call on one project writes lies outside of what belongs to another, and
`vote` reads what belongs to the proposal's project, the block number and the slot
of the date on which the proposal would be enacted. The slots are shared by all
projects and hold a limited number of proposals: through a full slot, and only
there, a project can keep another one's vote from succeeding.
-/

namespace Verigov

open State Transition

variable {T : Config} {s s' s1 s2 s1' s2' : State T} {id p : Nat} {info : ProjectInfo}

/-- The two states agree on the block number and on what belongs to project `p`. -/
structure SameProject (p : Nat) (s s' : State T) : Prop where
  blockNumber : s'.blockNumber = s.blockNumber
  info : s'.projects.get p = s.projects.get p
  stakeholder : ∀ a, s'.stakeholders.get (p, a) = s.stakeholders.get (p, a)
  roleStake : ∀ r, s'.roleStakeOf p r = s.roleStakeOf p r
  proposal : ∀ id pr, pr.projectId = p →
    (s'.proposals.get id = some pr ↔ s.proposals.get id = some pr)
  vote : ∀ id pr, s.proposals.get id = some pr → pr.projectId = p →
    ∀ a, s'.votes.get (id, a) = s.votes.get (id, a)
  tally : ∀ id pr, s.proposals.get id = some pr → pr.projectId = p →
    ∀ r, s'.tallyOf id r = s.tallyOf id r

theorem SameProject.refl (p : Nat) (s : State T) : SameProject p s s :=
  ⟨rfl, rfl, fun _ => rfl, fun _ => rfl, fun _ _ _ => Iff.rfl, fun _ _ _ _ _ => rfl,
    fun _ _ _ _ _ => rfl⟩

theorem SameProject.trans (h : SameProject p s s') (h' : SameProject p s' s2) :
    SameProject p s s2 where
  blockNumber := h'.blockNumber.trans h.blockNumber
  info := h'.info.trans h.info
  stakeholder a := (h'.stakeholder a).trans (h.stakeholder a)
  roleStake r := (h'.roleStake r).trans (h.roleStake r)
  proposal id pr hp := (h'.proposal id pr hp).trans (h.proposal id pr hp)
  vote id pr hpr hp a :=
    (h'.vote id pr ((h.proposal id pr hp).mpr hpr) hp a).trans (h.vote id pr hpr hp a)
  tally id pr hpr hp r :=
    (h'.tally id pr ((h.proposal id pr hp).mpr hpr) hp r).trans (h.tally id pr hpr hp r)

-- ---------------------------------------------------------------------------
-- Calls on other projects
-- ---------------------------------------------------------------------------

def statusAfter (met : Bool) (date : Nat) : ProposalStatus → ProposalStatus
  | .voting => if met then .approved date else .voting
  | .approved enactAt => if met then .approved enactAt else .voting
  | status => status

theorem withStatus_same {m : StorageMap Nat (Proposal AccountId)} (h : m.get id = some pr)
    (id' : Nat) : withStatus m id pr.status id' = m.get id' := by
  by_cases hid : id' = id
  · subst hid
    exact (withStatus_self h _).trans h.symm
  · exact withStatus_ne hid _

theorem doVote_proposals (h : doVote id p info who voter aye now s = .ok s')
    (hpr : s.proposals.get id = some pr) (id' : Nat) :
    s'.proposals.get id' = withStatus s.proposals id
      (statusAfter (meetsQuorums p info id (recordVote id who voter aye s))
        (saturatingAdd T.maxBlockNumber now info.policy.enactmentDelay) pr.status) id' := by
  obtain ⟨pr', hpr', ⟨hst, hmet, ids, -, rfl⟩ | ⟨e, hst, hmet, rfl⟩ | ⟨rfl, hnot, hmet⟩⟩ :=
    doVote_ok h <;> rw [hpr] at hpr' <;> cases hpr'
  · rw [hst, hmet]
    exact approve_get ..
  · rw [hst, hmet]
    exact revokeApproval_get ..
  · have hsame : statusAfter (meetsQuorums p info id (recordVote id who voter aye s))
        (saturatingAdd T.maxBlockNumber now info.policy.enactmentDelay) pr.status = pr.status := by
      cases hst : pr.status with
      | voting => simp [statusAfter, hnot hst]
      | approved e => simp [statusAfter, hmet e hst]
      | _ => rfl
    rw [hsame]
    exact (withStatus_same hpr id').symm

def projectOf (s : State T) : Call T → Option Nat
  | .projectGenesis .. => some s.nextProjectId
  | .newRelease p .. => some p
  | .vote id _ => (s.proposals.get id).map (·.projectId)
  | .submitCounterAttestation id _ => (s.proposals.get id).map (·.projectId)
  | .closeExpired id => (s.proposals.get id).map (·.projectId)

def Elsewhere (p : Nat) (s : State T) : Action T → Prop
  | .call _ c => projectOf s c ≠ some p
  | _ => False

instance (p : Nat) (s : State T) : (a : Action T) → Decidable (Elsewhere p s a)
  | .call _ c => inferInstanceAs (Decidable (projectOf s c ≠ some p))
  | .block => isFalse fun h => h
  | .failed .. => isFalse fun h => h
  | .other .. => isFalse fun h => h

theorem withStatus_iff (hpr : s.proposals.get id = some pr) (hne : pr.projectId ≠ p)
    (hp : pr'.projectId = p) (status : ProposalStatus) (id' : Nat) :
    withStatus s.proposals id status id' = some pr' ↔ s.proposals.get id' = some pr' := by
  by_cases hid : id' = id
  · subst hid
    rw [withStatus_self hpr, hpr]
    constructor <;> rintro ⟨⟩ <;> exact absurd hp hne
  · rw [withStatus_ne hid]

theorem dispatch_proposal (h : dispatch origin c s = .ok s') (hc : projectOf s c ≠ some p)
    (hf : FreshProposal s (.call origin c)) (hp : pr.projectId = p) :
    s'.proposals.get id = some pr ↔ s.proposals.get id = some pr := by
  cases c with
  | projectGenesis name xs policy slashing bond =>
    obtain ⟨s1, -, -, hs1, -, rfl⟩ := projectGenesis_ok h
    show s1.proposals.get id = some pr ↔ _
    rw [(registerAll_frame hs1).proposals]
  | newRelease q version att cid sig =>
    by_cases hid : id = s.nextProposalId
    · subst hid
      obtain ⟨-, -, -, -, -, -, -, -, -, hput⟩ := newRelease_filed h
      rw [hput, hf rfl]
      constructor <;> rintro ⟨⟩
      exact absurd (congrArg some hp) hc
    · rw [newRelease_other h hid]
  | vote id' aye =>
    obtain ⟨who, pr0, info, voter, -, hpr, -, -, -, -, hv⟩ := vote_ok h
    have hne : pr0.projectId ≠ p := by simpa [projectOf, hpr] using hc
    rw [doVote_proposals hv hpr]
    exact withStatus_iff hpr hne hp _ id
  | submitCounterAttestation id' rebuilt =>
    obtain ⟨pr0, info, y, slashed, hsl⟩ := submitCounterAttestation_slashes h
    have hne : pr0.projectId ≠ p := by simpa [projectOf, hsl.proposal] using hc
    rw [hsl.proposals, withStatus_insert hsl.proposal]
    exact withStatus_iff hsl.proposal hne hp _ id
  | closeExpired id' =>
    obtain ⟨who, pr0, released, balances, -, hpr, -, -, -, rfl⟩ := closeExpired_ok h
    have hne : pr0.projectId ≠ p := by simpa [projectOf, hpr] using hc
    rw [← withStatus_iff hpr hne hp .expired id, ← withStatus_insert hpr]
    rfl

theorem castOf_elsewhere (h : castOf s (.call origin c) = some x) (hc : projectOf s c ≠ some p)
    (hf : FreshProposal s (.call origin c)) (hpr : s.proposals.get id = some pr)
    (hp : pr.projectId = p) : x.proposalId ≠ id := by
  rintro rfl
  unfold castOf at h
  split at h
  · rename_i hcall
    cases hcall
    simp only [Option.bind_eq_bind, Option.bind_eq_some_iff, Option.pure_def,
      Option.some.injEq] at h
    obtain ⟨pr', hpr', voter, -, rfl⟩ := h
    simp [projectOf, hpr, hp] at hc
  · rename_i hcall
    cases hcall
    simp only [Option.bind_eq_bind, Option.bind_eq_some_iff, Option.pure_def,
      Option.some.injEq] at h
    obtain ⟨voter, -, rfl⟩ := h
    rw [hf rfl] at hpr
    cases hpr
  · cases h

/-- What belongs to project `p` is the same after a call on another project. -/
theorem dispatch_sameProject (h : dispatch origin c s = .ok s') (hc : projectOf s c ≠ some p)
    (hf : FreshProposal s (.call origin c)) : SameProject p s s' := by
  have hst : Step s (.call origin c) s' := .call _ _ h
  have hballot : ∀ id pr, s.proposals.get id = some pr → pr.projectId = p →
      (∀ a, s'.votes.get (id, a) = s.votes.get (id, a)) ∧
        ∀ r, s'.tallyOf id r = s.tallyOf id r := by
    intro id pr hpr hp
    rcases hst.ballotOn id with ⟨x, hx, -, hid⟩ | ⟨-, hvotes, htally⟩
    · exact absurd hid (castOf_elsewhere hx hc hf hpr hp)
    · exact ⟨hvotes, htally⟩
  have hregistry : (∀ a, s'.stakeholders.get (p, a) = s.stakeholders.get (p, a)) ∧
      ∀ r, s'.roleStakeOf p r = s.roleStakeOf p r := by
    rcases hst.registry with ⟨hsame, hrole⟩ | ⟨_, _, _, _, _, _, s1, heq, hs1, hput, hrole⟩ |
      ⟨_, id, _, pr, info, y, slashed, heq, hsl⟩
    · simp [State.roleStakeOf, hsame, hrole]
    · cases heq
      have hne : p ≠ s.nextProjectId := by simpa [projectOf, eq_comm] using hc
      obtain ⟨hget, hsum, -⟩ := registerAll_other hs1 hne
      refine ⟨fun a => by rw [hput, hget], fun r => ?_⟩
      rw [← hsum]
      unfold State.roleStakeOf
      rw [hrole]
    · cases heq
      have hne : p ≠ pr.projectId := by simpa [projectOf, hsl.proposal, eq_comm] using hc
      simp [State.roleStakeOf, hsl.stakeholders, hsl.roleStake, StorageMap.get_insert,
        StorageMap.getD_insert, hne]
  refine ⟨(dispatch_frame h).blockNumber, ?_, hregistry.1, hregistry.2,
    fun id pr hp => dispatch_proposal h hc hf hp, fun id pr hpr hp => (hballot id pr hpr hp).1,
    fun id pr hpr hp => (hballot id pr hpr hp).2⟩
  rcases hst.projects with ⟨hsame, -⟩ | ⟨_, _, _, _, _, _, heq, -, hput, -⟩
  · rw [hsame]
  · cases heq
    rw [hput, StorageMap.get_insert_ne]
    simpa [projectOf, eq_comm] using hc

theorem run_sameProject (h : Run Step s tr s') (hc : Along (Elsewhere p) tr)
    (hf : Along FreshProposal tr) : SameProject p s s' := by
  refine h.induct (I := fun _ t => SameProject p s t) (hc.and hf) (.refl p s) ?_
  rintro tr m a t - - hst ⟨helse, hfresh⟩ ih
  cases hst with
  | call origin c hd => exact ih.trans (dispatch_sameProject hd helse hfresh)
  | block => exact absurd helse id
  | failed => exact absurd helse id
  | other => exact absurd helse id

-- ---------------------------------------------------------------------------
-- One vote in two states
-- ---------------------------------------------------------------------------

/-- A vote on an open proposal fails in one way: it would approve the proposal, and the
slot is full. -/
theorem doVote_error (h : doVote id p info who voter aye now s = .error e)
    (hpr : s.proposals.get id = some pr) (ho : pr.status.isOpen = true) :
    e = .pallet .tooManyEnactments ∧ pr.status = .voting ∧
      (s.pendingAt (saturatingAdd T.maxBlockNumber now info.policy.enactmentDelay)).val.length =
        maxEnactmentsPerBlock := by
  cases hst : pr.status with
  | voting =>
    cases hmet : meetsQuorums p info id (recordVote id who voter aye s) with
    | false =>
      rw [doVote_of_not_met hpr hst hmet] at h
      cases h
    | true =>
      cases hids : (s.pendingAt (saturatingAdd T.maxBlockNumber now
          info.policy.enactmentDelay)).tryPush id with
      | some ids =>
        rw [doVote_of_met hpr hst hmet hids] at h
        cases h
      | none =>
        rw [doVote_of_full hpr hst hmet hids] at h
        cases h
        exact ⟨rfl, rfl, BoundedVec.tryPush_eq_none.mp hids⟩
  | approved enactAt =>
    obtain ⟨s', hs'⟩ := doVote_of_approved hpr hst p info who voter aye now
    rw [hs'] at h
    cases h
  | _ => simp [hst, ProposalStatus.isOpen] at ho

theorem SameProject.recordVote (h : SameProject p s1 s2) (hpr : s1.proposals.get id = some pr)
    (hp : pr.projectId = p) (who : T.AccountId) (voter : Stakeholder) (aye : Bool) :
    SameProject p (recordVote id who voter aye s1) (recordVote id who voter aye s2) where
  blockNumber := h.blockNumber
  info := h.info
  stakeholder := h.stakeholder
  roleStake := h.roleStake
  proposal := h.proposal
  vote id' pr' hpr' hp' a := by
    refine (StorageMap.get_insert ..).trans (.trans ?_ (StorageMap.get_insert ..).symm)
    rw [h.vote id' pr' hpr' hp' a]
  tally id' pr' hpr' hp' r := by
    by_cases hk : (id', r) = (id, voter.role)
    · cases hk
      rw [tallyOf_recordVote, tallyOf_recordVote, h.tally id pr hpr hp, h.vote id pr hpr hp]
    · rw [tallyOf_recordVote_other _ _ _ _ _ hk, tallyOf_recordVote_other _ _ _ _ _ hk,
        h.tally id' pr' hpr' hp']

theorem SameProject.meetsQuorums (h : SameProject p s1 s2) (hpr : s1.proposals.get id = some pr)
    (hp : pr.projectId = p) (info : ProjectInfo) :
    meetsQuorums p info id s2 = meetsQuorums p info id s1 :=
  meetsQuorums_congr h.roleStake (h.tally id pr hpr hp)

theorem SameProject.doVote (h : SameProject p s1 s2) (hpr : s1.proposals.get id = some pr)
    (hp : pr.projectId = p) (h1 : doVote id p info who voter aye now s1 = .ok s1')
    (h2 : doVote id p info who voter aye now s2 = .ok s2') : SameProject p s1' s2' := by
  have hpr2 := (h.proposal id pr hp).mpr hpr
  have hrec := h.recordVote hpr hp who voter aye
  have hmet := hrec.meetsQuorums hpr hp info
  have hf1 := doVote_frame h1
  have hf2 := doVote_frame h2
  have hold : ∀ id' pr', s1'.proposals.get id' = some pr' → pr'.projectId = p →
      ∃ pr0, s1.proposals.get id' = some pr0 ∧ pr0.projectId = p := by
    intro id' pr' hpr' hp'
    rw [doVote_proposals h1 hpr] at hpr'
    obtain ⟨pr0, hpr0, hproj⟩ := withStatus_eq_some hpr'
    exact ⟨pr0, hpr0, hproj.trans hp'⟩
  refine ⟨?_, ?_, fun a => ?_, fun r => ?_, fun id' pr' hp' => ?_, fun id' pr' hpr' hp' a => ?_,
    fun id' pr' hpr' hp' r => ?_⟩
  · rw [hf2.blockNumber, hf1.blockNumber, h.blockNumber]
  · rw [hf2.projects, hf1.projects, h.info]
  · rw [hf2.stakeholders, hf1.stakeholders, h.stakeholder]
  · have hr := h.roleStake r
    unfold State.roleStakeOf at hr ⊢
    rw [hf2.roleStake, hf1.roleStake, hr]
  · rw [doVote_proposals h2 hpr2, doVote_proposals h1 hpr, hmet]
    by_cases hid : id' = id
    · subst hid
      rw [withStatus_self hpr, withStatus_self hpr2]
    · rw [withStatus_ne hid, withStatus_ne hid]
      exact h.proposal id' pr' hp'
  · obtain ⟨pr0, hpr0, hp0⟩ := hold id' pr' hpr' hp'
    rw [(doVote_votes h2).1, (doVote_votes h1).1]
    exact hrec.vote id' pr0 hpr0 hp0 a
  · obtain ⟨pr0, hpr0, hp0⟩ := hold id' pr' hpr' hp'
    have ht := hrec.tally id' pr0 hpr0 hp0 r
    unfold State.tallyOf at ht ⊢
    rw [(doVote_votes h2).2, (doVote_votes h1).2]
    exact ht

def checkVote (pr : Proposal T.AccountId) (now : Nat) (project : Option ProjectInfo)
    (voter : Option Stakeholder) : Except DispatchError (ProjectInfo × Stakeholder) := do
  ensure pr.status.isOpen .proposalNotVoting
  ensure (decide (now ≤ pr.votingEnds)) .votingPeriodOver
  let project ← okOr project .projectNotFound
  let voter ← okOr voter .notStakeholder
  pure (project, voter)

theorem vote_eq_checkVote (hpr : s.proposals.get id = some pr) (who : T.AccountId) (aye : Bool) :
    vote (.signed who) id aye s =
      checkVote pr s.blockNumber (s.projects.get pr.projectId)
        (s.stakeholders.get (pr.projectId, who)) >>=
        fun x => doVote id pr.projectId x.1 who x.2 aye s.blockNumber s := by
  simp [vote, checkVote, ensureSigned, okOr, hpr, bind_assoc, pure_bind]

theorem checkVote_ok {pr : Proposal T.AccountId} (h : checkVote pr now project voter = .ok x) :
    pr.status.isOpen = true ∧ project = some x.1 := by
  simp only [checkVote, bind_eq_ok, ensure_ok, okOr_ok, pure_eq_ok] at h
  obtain ⟨_, ho, _, -, info, hproj, y, -, rfl⟩ := h
  exact ⟨ho, hproj⟩

/-- Both calls succeed and leave the same of project `p`, or both fail alike. -/
inductive SameOutcome (p : Nat) :
    Except DispatchError (State T) → Except DispatchError (State T) → Prop
  | ok {t t' : State T} (h : SameProject p t t') : SameOutcome p (.ok t) (.ok t')
  | error (e : DispatchError) : SameOutcome p (.error e) (.error e)

/-- The vote is refused because the slot of the date on which it would have the proposal
enacted is full. -/
structure Crowded (id : Nat) (pr : Proposal T.AccountId) (who : T.AccountId) (aye : Bool)
    (s : State T) : Prop where
  refused : vote (.signed who) id aye s = .error (.pallet .tooManyEnactments)
  voting : pr.status = .voting
  full : ∃ info, s.projects.get pr.projectId = some info ∧
    (s.pendingAt (saturatingAdd T.maxBlockNumber s.blockNumber
      info.policy.enactmentDelay)).val.length = maxEnactmentsPerBlock

theorem crowded_of_error (hpr : s.proposals.get id = some pr) (ho : pr.status.isOpen = true)
    (hproj : s.projects.get pr.projectId = some info)
    (hv : vote (.signed who) id aye s =
      doVote id pr.projectId info who voter aye s.blockNumber s)
    (h : doVote id pr.projectId info who voter aye s.blockNumber s = .error e) :
    Crowded id pr who aye s := by
  obtain ⟨rfl, hst, hfull⟩ := doVote_error h hpr ho
  exact ⟨hv.trans h, hst, info, hproj, hfull⟩

/-- A vote on a proposal of project `p` has the same outcome in any two states that agree
on what belongs to `p`, unless in one of them it is refused for a full slot. -/
theorem vote_isolated (h : SameProject p s1 s2) (hpr : s1.proposals.get id = some pr)
    (hp : pr.projectId = p) (who : T.AccountId) (aye : Bool) :
    SameOutcome p (vote (.signed who) id aye s1) (vote (.signed who) id aye s2) ∨
      Crowded id pr who aye s1 ∨ Crowded id pr who aye s2 := by
  have hpr2 := (h.proposal id pr hp).mpr hpr
  have hv1 := vote_eq_checkVote hpr who aye
  have hv2 := vote_eq_checkVote hpr2 who aye
  subst hp
  rw [h.blockNumber, h.info, h.stakeholder] at hv2
  cases hc : checkVote pr s1.blockNumber (s1.projects.get pr.projectId)
      (s1.stakeholders.get (pr.projectId, who)) with
  | error e =>
    rw [hc] at hv1 hv2
    rw [hv1, hv2]
    exact .inl (.error e)
  | ok x =>
    obtain ⟨ho, hproj⟩ := checkVote_ok hc
    rw [hc] at hv1 hv2
    simp only [bind, Except.bind] at hv1 hv2
    cases h1 : doVote id pr.projectId x.1 who x.2 aye s1.blockNumber s1 with
    | error e => exact .inr (.inl (crowded_of_error hpr ho hproj hv1 h1))
    | ok s1' =>
      cases h2 : doVote id pr.projectId x.1 who x.2 aye s1.blockNumber s2 with
      | error e =>
        rw [← h.info] at hproj
        rw [← h.blockNumber] at hv2 h2
        exact .inr (.inr (crowded_of_error hpr2 ho hproj hv2 h2))
      | ok s2' =>
        rw [hv1, hv2, h1, h2]
        exact .inl (.ok (h.doVote hpr rfl h1 h2))

theorem vote_isolated_approved :
    let s1 := Mock.after [Mock.genesis .coreDeveloper (Mock.percent 60) 7 0, Mock.propose 8 1]
    let s2 := (Mock.further [Mock.genesis .coreDeveloper (Mock.percent 30) 7 0,
      Mock.proposeIn 1 8 2] s1).2
    s2.pendingAt 8 ≠ s1.pendingAt 8 ∧
      SameOutcome 0 (vote (.signed (2 : Nat)) 0 true s1) (vote (.signed (2 : Nat)) 0 true s2) := by
  intro s1 s2
  have hrun := Mock.run_further [Mock.genesis .coreDeveloper (Mock.percent 30) 7 0,
    Mock.proposeIn 1 8 2] s1
  have hsame : SameProject 0 s1 s2 := run_sameProject hrun (by decide +kernel) (by decide +kernel)
  obtain ⟨pr, hpr, hp⟩ := Option.map_eq_some_iff.mp (show (s1.proposals.get 0).map
    (fun pr => pr.projectId) = some 0 by decide +kernel)
  refine ⟨by decide +kernel, ?_⟩
  obtain ⟨t1, h1⟩ : ∃ t, vote (.signed (2 : Nat)) 0 true s1 = .ok t := exists_ok (by decide +kernel)
  obtain ⟨t2, h2⟩ : ∃ t, vote (.signed (2 : Nat)) 0 true s2 = .ok t := exists_ok (by decide +kernel)
  rcases vote_isolated hsame hpr hp (2 : Nat) true with hout | hcrowd | hcrowd
  · exact hout
  · cases h1.symm.trans hcrowd.refused
  · cases h2.symm.trans hcrowd.refused

/-- Project `1` files 32 releases that are approved at once, and so fills the slot that
the vote of the second developer in project `0` needs. -/
theorem vote_refused_by_other_project :
    let s1 := Mock.after [Mock.genesis .coreDeveloper (Mock.percent 60) 5 0, Mock.propose 8 1,
      Mock.genesis .coreDeveloper (Mock.percent 30) 5 0]
    let s2 := (Mock.further (List.replicate 32 (Mock.proposeIn 1 8 2)) s1).2
    Reachable s1 ∧ Reachable s2 ∧ SameProject 0 s1 s2 ∧
      (∃ pr, s1.proposals.get 0 = some pr ∧ pr.projectId = 0) ∧
      (∃ s', vote (.signed (2 : Nat)) 0 true s1 = .ok s') ∧
      vote (.signed (2 : Nat)) 0 true s2 = .error (.pallet .tooManyEnactments) := by
  intro s1 s2
  have hrun := Mock.run_further (List.replicate 32 (Mock.proposeIn 1 8 2)) s1
  obtain ⟨pr, hpr, hp⟩ := Option.map_eq_some_iff.mp (show (s1.proposals.get 0).map
    (fun pr => pr.projectId) = some 0 by decide +kernel)
  have hreach : Reaches _ s1 := Mock.reaches _
  have herr : (match vote (.signed (2 : Nat)) 0 true s2 with
      | .error e => some e
      | .ok _ => none) = some (.pallet .tooManyEnactments) := by decide +kernel
  refine ⟨⟨_, hreach⟩, ⟨_, hreach.append hrun⟩,
    run_sameProject hrun (by decide +kernel) (by decide +kernel), ⟨pr, hpr, hp⟩,
    exists_ok (by decide +kernel), ?_⟩
  cases hv : vote (.signed (2 : Nat)) 0 true s2 with
  | ok t => simp [hv] at herr
  | error e => simpa [hv] using herr

end Verigov
