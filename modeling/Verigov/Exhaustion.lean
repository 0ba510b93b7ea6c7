import Verigov.Registry
import Verigov.ReleaseLog
import Verigov.Schedule

/-!
# When a counter is exhausted

Projects, proposals and log entries are numbered by 32-bit counters that
saturate. Below the limit a counter hands out a number that is not in use, at
the limit the last one again and again: the call succeeds and overwrites what
was there. The proposal counter can be driven to its limit by filing releases
that are not approved, which costs nothing where the bond is zero.
-/

namespace Verigov

open State Transition Agenda

variable {T : Config} {s s' : State T} {id : Nat}

/-- A counter of the numbers in use: they are below it, or it has reached its limit. -/
def Counts (next : Nat) (used : Nat → Bool) : Prop :=
  next ≤ u32Max ∧ ((∀ k, used k → k < next) ∨ next = u32Max)

theorem Counts.unused_iff {used : Nat → Bool} (h : Counts next used) :
    used next = false ↔ next < u32Max ∨ used u32Max = false := by
  obtain ⟨htop, hlt | rfl⟩ := h
  · have hout : ∀ k, next ≤ k → used k = false := by
      intro k hk
      by_contra hu
      have hk' := hlt k (by simpa using hu)
      omega
    simp only [hout next (Nat.le_refl _), true_iff]
    rcases Nat.lt_or_eq_of_le htop with hn | hn
    · exact .inl hn
    · exact .inr (hout _ (Nat.le_of_eq hn))
  · simp

theorem Counts.succ {used used' : Nat → Bool} (h : Counts n used)
    (hused : ∀ k, used' k → used k ∨ k = n) : Counts (saturatingAdd u32Max n 1) used' := by
  obtain ⟨htop, hlt | rfl⟩ := h
  · rcases Nat.lt_or_eq_of_le htop with hn | rfl
    · rw [saturatingAdd_u32 hn]
      refine ⟨hn, .inl fun k hk => ?_⟩
      rcases hused k hk with hk | rfl
      · exact Nat.lt_succ_of_lt (hlt k hk)
      · exact Nat.lt_succ_self k
    · exact ⟨Nat.le_refl _, .inr rfl⟩
  · exact ⟨Nat.le_refl _, .inr rfl⟩

theorem Counts.mono {used used' : Nat → Bool} (h : Counts n used)
    (hused : ∀ k, used' k → used k) : Counts n used' :=
  ⟨h.1, h.2.imp_left fun hlt k hk => hlt k (hused k hk)⟩

structure Numbered (s : State T) : Prop where
  projects : Counts s.nextProjectId s.projects.containsKey
  proposals : Counts s.nextProposalId s.proposals.containsKey
  log : ∀ p, Counts (s.releaseCountOf p) fun i => s.releaseLog.containsKey (p, i)

theorem Step.counts_projects (h : Step s a s')
    (hs : Counts s.nextProjectId s.projects.containsKey) :
    Counts s'.nextProjectId s'.projects.containsKey := by
  rcases h.projects with ⟨hsame, hn⟩ | ⟨_, _, _, _, _, _, -, -, hput, hn⟩
  · rwa [hsame, hn]
  · rw [hput, hn]
    apply hs.succ
    intro p hp
    rw [StorageMap.containsKey, StorageMap.get_insert] at hp
    split at hp
    · exact .inr ‹_›
    · exact .inl hp

theorem Step.proposal_counted (h : Step s a s') (hid : s'.proposals.containsKey id) :
    s.proposals.containsKey id ∨
      id = s.nextProposalId ∧ s'.nextProposalId = saturatingAdd u32Max s.nextProposalId 1 := by
  rcases h.proposal id with hfiled | ⟨-, hnone⟩ | ⟨pr, _, hpr, -, -⟩
  · obtain ⟨rfl, -, -, -, -, -, -, -, -, -⟩ := hfiled
    cases h with
    | call _ _ h => exact .inr ⟨rfl, newRelease_nextProposalId h⟩
  · simp [StorageMap.containsKey, hnone] at hid
  · exact .inl (by simp [StorageMap.containsKey, hpr])

theorem Step.counts_proposals (h : Step s a s')
    (hs : Counts s.nextProposalId s.proposals.containsKey) :
    Counts s'.nextProposalId s'.proposals.containsKey := by
  by_cases hn : s'.nextProposalId = saturatingAdd u32Max s.nextProposalId 1
  · rw [hn]
    exact hs.succ fun id hid => (h.proposal_counted hid).imp_right And.left
  · have hsame : s'.nextProposalId = s.nextProposalId := by
      rcases h.nextProposalId with hsame | ⟨_, _, _, _, _, _, -, -, hmoved⟩
      · exact hsame
      · exact absurd hmoved hn
    rw [hsame]
    refine hs.mono fun id hid => ?_
    rcases h.proposal_counted hid with hold | ⟨-, hmoved⟩
    · exact hold
    · exact absurd hmoved hn

theorem enact_counts (id now : Nat) (hs : ∀ p, Counts (s.releaseCountOf p) fun i =>
    s.releaseLog.containsKey (p, i)) (p : Nat) :
    Counts ((enact id now s).releaseCountOf p) fun i =>
      (enact id now s).releaseLog.containsKey (p, i) := by
  rcases enact_cases id now s with ⟨pr, e, info, -, -, -, ⟨-, heq⟩ | ⟨-, heq⟩⟩ | ⟨heq, -⟩ <;>
    rw [heq]
  · simp only [logRelease_count, StorageMap.containsKey, logRelease_get, Prod.mk.injEq]
    by_cases hp : p = pr.projectId
    · subst hp
      simp only [if_true, true_and]
      refine (hs _).succ fun i hi => ?_
      split at hi
      · exact .inr ‹_›
      · exact .inl hi
    · simp only [hp, if_false, false_and]
      exact hs p
  · exact hs p
  · exact hs p

theorem Step.counts_log (h : Step s a s') (hs : ∀ p, Counts (s.releaseCountOf p) fun i =>
    s.releaseLog.containsKey (p, i)) (p : Nat) :
    Counts (s'.releaseCountOf p) fun i => s'.releaseLog.containsKey (p, i) := by
  by_cases ha : a = .block
  · subst ha
    cases h with
    | block =>
      refine nextBlock_induct (I := fun _ m => ∀ p, Counts (m.releaseCountOf p) fun i =>
        m.releaseLog.containsKey (p, i)) hs ?_ p
      intro id ids m hm
      exact enact_counts id (s.blockNumber + 1) hm
  · have hf := h.callFrame ha
    unfold State.releaseCountOf
    rw [hf.releaseCount, hf.releaseLog]
    exact hs p

theorem Reaches.numbered (h : Reaches tr s) : Numbered s := by
  obtain ⟨s0, ⟨n, b, rfl, -⟩, hr⟩ := h
  refine hr.always ⟨?_, ?_, fun p => ?_⟩ fun m a t hst hm => ⟨hst.counts_projects hm.projects,
    hst.counts_proposals hm.proposals, hst.counts_log hm.log⟩ <;>
    exact ⟨Nat.zero_le _, .inl (by simp [StorageMap.containsKey])⟩

-- ---------------------------------------------------------------------------
-- What a call adds
-- ---------------------------------------------------------------------------

/-- A project is there that was not, and those that were are as they were. -/
structure AddsProject (s s' : State T) : Prop where
  new : ∃ p, s.projects.get p = none ∧ (s'.projects.get p).isSome
  kept : ∀ p, (s.projects.get p).isSome → s'.projects.get p = s.projects.get p ∧
    (∀ a, s'.stakeholders.get (p, a) = s.stakeholders.get (p, a)) ∧
    ∀ r, s'.roleStakeOf p r = s.roleStakeOf p r

structure AddsProposal (s s' : State T) : Prop where
  new : ∃ id, s.proposals.get id = none ∧ (s'.proposals.get id).isSome
  kept : ∀ id, (s.proposals.get id).isSome → s'.proposals.get id = s.proposals.get id ∧
    (∀ a, s'.votes.get (id, a) = s.votes.get (id, a)) ∧
    ∀ r, s'.tallyOf id r = s.tallyOf id r

structure AddsEntry (s s' : State T) : Prop where
  new : ∃ k, s.releaseLog.get k = none ∧ (s'.releaseLog.get k).isSome
  kept : ∀ k, (s.releaseLog.get k).isSome → s'.releaseLog.get k = s.releaseLog.get k

theorem projectGenesis_adds (h : projectGenesis origin name xs policy slashing bond s = .ok s') :
    AddsProject s s' ↔ s.projects.get s.nextProjectId = none := by
  obtain ⟨s1, -, -, hs1, -, rfl⟩ := projectGenesis_ok h
  have hget : ∀ p, (s1.projects.insert s.nextProjectId ⟨name, policy, slashing, bond⟩).get p =
      if p = s.nextProjectId then some ⟨name, policy, slashing, bond⟩ else s.projects.get p := by
    intro p
    rw [StorageMap.get_insert, (registerAll_frame hs1).projects]
  have hnew := StorageMap.new_key_iff
    (m := s.projects) (n := s1.projects.insert s.nextProjectId ⟨name, policy, slashing, bond⟩)
    (k := s.nextProjectId) (by simp) (fun p hp => by rw [hget, if_neg hp])
  refine ⟨fun hadds => hnew.mp hadds.new, fun hnone => ⟨hnew.mpr hnone, fun p hp => ?_⟩⟩
  have hne : p ≠ s.nextProjectId := by
    rintro rfl
    rw [hnone] at hp
    cases hp
  obtain ⟨hst, hrole, -, -⟩ := registerAll_other hs1 hne
  exact ⟨(hget p).trans (if_neg hne), hst, hrole⟩

theorem castOf_newRelease
    (h : castOf s (.call origin (.newRelease p version att cid sig)) = some c) :
    c.proposalId = s.nextProposalId := by
  cases origin with
  | signed who =>
    simp only [castOf, Option.bind_eq_bind, Option.bind_eq_some_iff, Option.pure_def,
      Option.some.injEq] at h
    obtain ⟨voter, -, rfl⟩ := h
    rfl
  | _ => cases h

theorem newRelease_adds (h : newRelease origin p version att cid sig s = .ok s') :
    AddsProposal s s' ↔ s.proposals.get s.nextProposalId = none := by
  have hself : (s'.proposals.get s.nextProposalId).isSome := by
    obtain ⟨-, -, -, -, -, -, -, -, -, hput⟩ := newRelease_filed h
    simp [hput]
  have hother : ∀ id, id ≠ s.nextProposalId → s'.proposals.get id = s.proposals.get id :=
    fun id hid => newRelease_other h hid
  have hnew := StorageMap.new_key_iff hself hother
  refine ⟨fun hadds => hnew.mp hadds.new, fun hnone => ⟨hnew.mpr hnone, fun id hid => ?_⟩⟩
  have hne : id ≠ s.nextProposalId := by
    rintro rfl
    rw [hnone] at hid
    cases hid
  refine ⟨hother id hne, ?_⟩
  have hst : Step s (.call origin (.newRelease p version att cid sig)) s' := .call _ _ h
  rcases hst.ballotOn id with ⟨c, hc, -, rfl⟩ | ⟨-, hsame⟩
  · exact absurd (castOf_newRelease hc) hne
  · exact hsame

theorem logRelease_adds (id now : Nat) (pr : Proposal T.AccountId) (s : State T) :
    AddsEntry s (logRelease id pr now s) ↔
      s.releaseLog.get (pr.projectId, s.releaseCountOf pr.projectId) = none := by
  have hnew := StorageMap.new_key_iff (m := s.releaseLog) (n := (logRelease id pr now s).releaseLog)
    (k := (pr.projectId, s.releaseCountOf pr.projectId)) (by simp [logRelease_get])
    (fun k hk => by rw [logRelease_get, if_neg hk])
  refine ⟨fun hadds => hnew.mp hadds.new, fun hnone => ⟨hnew.mpr hnone, fun k hk => ?_⟩⟩
  rw [logRelease_get, if_neg]
  rintro rfl
  rw [hnone] at hk
  cases hk

/-- A call that gives out a number adds a record iff the counter is below its limit
or nothing is stored under the last number. -/
theorem adds_iff_not_exhausted (hs : Numbered s) :
    (∀ origin name xs policy slashing bond s',
      projectGenesis origin name xs policy slashing bond s = .ok s' →
        (AddsProject s s' ↔ s.nextProjectId < u32Max ∨ s.projects.get u32Max = none)) ∧
    (∀ origin p version att cid sig s',
      newRelease origin p version att cid sig s = .ok s' →
        (AddsProposal s s' ↔ s.nextProposalId < u32Max ∨ s.proposals.get u32Max = none)) ∧
    ∀ id now pr enactAt info, s.proposals.get id = some pr → pr.status = .approved enactAt →
      s.projects.get pr.projectId = some info →
      meetsQuorums pr.projectId info id s = true →
        (AddsEntry s (enact id now s) ↔ s.releaseCountOf pr.projectId < u32Max ∨
          s.releaseLog.get (pr.projectId, u32Max) = none) := by
  refine ⟨fun _ _ _ _ _ _ _ h => ?_, fun _ _ _ _ _ _ _ h => ?_, ?_⟩
  · have hiff := hs.projects.unused_iff
    simp only [StorageMap.containsKey, Option.isSome_eq_false_iff,
      Option.isNone_iff_eq_none] at hiff
    exact (projectGenesis_adds h).trans hiff
  · have hiff := hs.proposals.unused_iff
    simp only [StorageMap.containsKey, Option.isSome_eq_false_iff,
      Option.isNone_iff_eq_none] at hiff
    exact (newRelease_adds h).trans hiff
  · intro id now pr enactAt info hpr hst hproj hmet
    have hiff := (hs.log pr.projectId).unused_iff
    simp only [StorageMap.containsKey, Option.isSome_eq_false_iff,
      Option.isNone_iff_eq_none] at hiff
    have heq : enact id now s = logRelease id pr now s := by
      simp [enact, hpr, hst, hproj, hmet]
    rw [heq]
    exact (logRelease_adds id now pr s).trans hiff

theorem adds_iff_not_exhausted_filed :
    let s := Mock.after [Mock.genesis .coreDeveloper (Mock.percent 50) 4 0, Mock.propose 8 1]
    ∃ s', perform (Mock.propose 8 1) s = some s' ∧ AddsProposal s s' := by
  intro s
  obtain ⟨s', hs'⟩ := Option.isSome_iff_exists.mp
    (show (perform (Mock.propose 8 1) s).isSome by decide +kernel)
  refine ⟨s', hs', ?_⟩
  cases perform_step hs' with
  | call origin c h =>
    exact ((adds_iff_not_exhausted (Mock.reaches _).numbered).2.1 _ _ _ _ _ _ _ h).mpr
      (.inl (by decide +kernel))

-- ---------------------------------------------------------------------------
-- Filing releases up to the limit
-- ---------------------------------------------------------------------------

theorem tallyOf_recordVote {T : Config} (s : State T) (id : Nat) (who : T.AccountId)
    (voter : Stakeholder) (aye : Bool) :
    (recordVote id who voter aye s).tallyOf id voter.role =
      (s.tallyOf id voter.role).record T.maxBalance (s.votes.get (id, who)) voter.stake aye :=
  (StorageMap.getD_insert ..).trans (if_pos rfl)

theorem tallyOf_recordVote_other {T : Config} (s : State T) (id : Nat) (who : T.AccountId)
    (voter : Stakeholder) (aye : Bool) {id' : Nat} {r : Role} (h : (id', r) ≠ (id, voter.role)) :
    (recordVote id who voter aye s).tallyOf id' r = s.tallyOf id' r :=
  (StorageMap.getD_insert ..).trans (if_neg h)

namespace Mock

variable {s s' : State Test} {info : ProjectInfo} {id n : Nat}

def only (id : Nat) : BoundedVec Nat maxEnactmentsPerBlock :=
  ⟨[id], by simp [maxEnactmentsPerBlock]⟩

theorem tryPush_empty (id : Nat) :
    (BoundedVec.empty : BoundedVec Nat maxEnactmentsPerBlock).tryPush id = some (only id) := rfl

def developer : Stakeholder := ⟨.coreDeveloper, 1000⟩

/-- Project `0` enacts after two blocks, and half of its core developers have to
approve: two of the three. -/
structure TwoOfThree (info : ProjectInfo) (s : State Test) : Prop where
  roles : info.policy.requiredRoles.val = [⟨.coreDeveloper, percent 50⟩]
  delay : info.policy.enactmentDelay = 2
  bond : info.proposalBond = 0
  project : s.projects.get 0 = some info
  first : s.stakeholders.get (0, (1 : Nat)) = some developer
  second : s.stakeholders.get (0, (2 : Nat)) = some developer
  builder : s.stakeholders.get (0, (8 : Nat)) = some ⟨.buildService, 1000⟩
  stake : s.roleStakeOf 0 .coreDeveloper = 3000

theorem TwoOfThree.congr (h : TwoOfThree info s) (hproj : s'.projects = s.projects)
    (hst : s'.stakeholders = s.stakeholders) (hrs : s'.roleStake = s.roleStake) :
    TwoOfThree info s' := by
  obtain ⟨hroles, hdelay, hbond, hproject, hfirst, hsecond, hbuilder, hstake⟩ := h
  unfold roleStakeOf at hstake
  rw [← hproj] at hproject
  rw [← hst] at hfirst hsecond hbuilder
  rw [← hrs] at hstake
  exact ⟨hroles, hdelay, hbond, hproject, hfirst, hsecond, hbuilder, hstake⟩

theorem TwoOfThree.meetsQuorums (h : TwoOfThree info s)
    (hayes : (s.tallyOf id .coreDeveloper).ayes = n) :
    meetsQuorums 0 info id s = RoleQuorum.met ⟨.coreDeveloper, percent 50⟩ 3000 n := by
  simp [Verigov.meetsQuorums, h.roles, h.stake, hayes]

def Solvent (bal : Test.currency.Ledger) : Prop := 0 < Ledger.freeOf bal (1 : Nat)

instance (bal : Test.currency.Ledger) : Decidable (Solvent bal) :=
  inferInstanceAs (Decidable (0 < _))

def release (info : ProjectInfo) (s : State Test) : Proposal Nat :=
  newProposal (T := Test) info (1 : Nat) 0 version (attestation 8 1) (h 0x42) s

def proposeIn (p builder : Nat) (binary : UInt8) : Action Test :=
  .call (.signed 1) (.newRelease p version (attestation builder binary) (h 0x42)
    ⟨builder, (attestation builder binary).signingPayload⟩)

theorem perform_proposeIn (binary : UInt8) (hproj : s.projects.get p = some info)
    (hbond : info.proposalBond = 0) (hx : s.stakeholders.get (p, (1 : Nat)) = some x)
    (hxr : x.role = .coreDeveloper) (hy : s.stakeholders.get (p, builder) = some y)
    (hyr : y.role = .buildService) (hfunds : Solvent s.balances) :
    ∃ balances, Solvent balances ∧ perform (proposeIn p builder binary) s =
      (doVote (T := Test) s.nextProposalId p info (1 : Nat) x true s.blockNumber
        (addProposal (T := Test) (newProposal (T := Test) info (1 : Nat) p version
          (attestation builder binary) (h 0x42) s) balances s)).toOption := by
  have hhold : ∃ balances,
      Test.currency.hold .proposalBond (1 : Nat) info.proposalBond s.balances = .ok balances ∧
        Ledger.freeOf balances (1 : Nat) = Ledger.freeOf s.balances (1 : Nat) := by
    rw [hbond]
    exact Ledger.hold_zero hfunds
  obtain ⟨balances, hhold, hfree⟩ := hhold
  have hsig : Test.verify ⟨builder, (attestation builder binary).signingPayload⟩
      (attestation builder binary).signingPayload builder = true := by simp
  exact ⟨balances, Nat.lt_of_lt_of_eq hfunds hfree.symm,
    congrArg Except.toOption (newRelease_of hproj hx hxr hy hyr hsig hhold)⟩

theorem perform_propose (hs : TwoOfThree info s) (hfunds : Solvent s.balances) :
    ∃ balances, Solvent balances ∧ perform (propose 8 1) s =
      (doVote (T := Test) s.nextProposalId 0 info (1 : Nat) developer true s.blockNumber
        (addProposal (T := Test) (release info s) balances s)).toOption :=
  perform_proposeIn 1 hs.project hs.bond hs.first rfl hs.builder rfl hfunds

/-- In the first block `n` releases have been filed, none of which is approved. -/
structure Filing (n : Nat) (info : ProjectInfo) (s : State Test) : Prop extends
    TwoOfThree info s where
  next : s.nextProposalId = n
  block : s.blockNumber = 1
  slot : ∀ b, s.pendingAt b = .empty
  tally : ∀ id, n ≤ id → s.tallyOf id .coreDeveloper = {}
  vote : ∀ id a, n ≤ id → s.votes.get (id, a) = none
  funds : Solvent s.balances

def filed (info : ProjectInfo) (balances : Test.currency.Ledger) (s : State Test) : State Test :=
  recordVote (T := Test) s.nextProposalId (1 : Nat) developer true
    (addProposal (T := Test) (release info s) balances s)

theorem filed_get (info : ProjectInfo) (bal : Test.currency.Ledger) (s : State Test) :
    (filed info bal s).proposals.get s.nextProposalId = some (release info s) := by
  show (addProposal (T := Test) (release info s) bal s).proposals.get s.nextProposalId = _
  exact addProposal_get_self

theorem Filing.votingOpen (h : Filing n info s) :
    s.blockNumber ≤ saturatingAdd u64Max s.blockNumber info.policy.votingPeriod := by
  rw [h.block]
  unfold saturatingAdd u64Max
  omega

theorem Filing.tally_filed (h : Filing n info s) (bal : Test.currency.Ledger) :
    (filed info bal s).tallyOf n .coreDeveloper = { ayes := 1000 } := by
  have htally : (filed info bal s).tallyOf n .coreDeveloper =
      (s.tallyOf n .coreDeveloper).record Test.maxBalance (s.votes.get (n, (1 : Nat))) 1000 true :=
    h.next ▸ tallyOf_recordVote ..
  rw [htally, h.tally n (Nat.le_refl n), h.vote n _ (Nat.le_refl n)]
  decide

theorem Filing.propose (h : Filing n info s) :
    ∃ bal, Solvent bal ∧ perform (propose 8 1) s = some (filed info bal s) := by
  obtain ⟨bal, hfunds, hb⟩ := perform_propose h.toTwoOfThree h.funds
  have hp : TwoOfThree info (filed info bal s) := h.congr rfl rfl rfl
  have hmet : meetsQuorums 0 info s.nextProposalId (filed info bal s) = false := by
    rw [hp.meetsQuorums (congrArg RoleTally.ayes (h.next.symm ▸ h.tally_filed bal))]
    decide
  refine ⟨bal, hfunds, hb.trans ?_⟩
  rw [doVote_of_not_met addProposal_get_self rfl hmet]
  rfl

theorem Filing.filed (h : Filing n info s) (hn : n < u32Max) (hfunds : Solvent bal) :
    Filing (n + 1) info (filed info bal s) where
  toTwoOfThree := h.congr rfl rfl rfl
  next := by
    show saturatingAdd u32Max s.nextProposalId 1 = n + 1
    rw [h.next, saturatingAdd_u32 hn]
  block := h.block
  slot := h.slot
  tally id hid := by
    refine (StorageMap.getD_insert ..).trans ((if_neg ?_).trans (h.tally id (by omega)))
    rw [h.next]
    rintro ⟨⟩
    omega
  vote id a hid := by
    refine (StorageMap.get_insert_ne _ _ ?_).trans (h.vote id a (by omega))
    rw [h.next]
    rintro ⟨⟩
    omega
  funds := hfunds

theorem Filing.exec {J : State Test → Prop}
    (hJ : ∀ info bal s, J s → J (Mock.filed info bal s)) (h : Filing k info s) (h0 : J s)
    (hk : k + n ≤ u32Max) :
    ∃ tr s', exec (List.replicate n (Mock.propose 8 1)) s = some (tr, s') ∧
      Filing (k + n) info s' ∧ J s' := by
  induction n generalizing k s with
  | zero => exact ⟨[], s, rfl, h, h0⟩
  | succ n ih =>
    obtain ⟨bal, hfunds, hb⟩ := h.propose
    obtain ⟨tr, s', he, hs'⟩ := ih (h.filed (by omega) hfunds) (hJ info bal s h0) (by omega)
    refine ⟨(s, Mock.propose 8 1) :: tr, s', ?_, ?_⟩
    · simp [List.replicate_succ, Verigov.exec, hb, he]
    · rwa [Nat.add_right_comm, Nat.add_assoc] at hs'

structure FilingFrame (s s' : State Test) : Prop where
  projects : s'.projects = s.projects
  stakeholders : s'.stakeholders = s.stakeholders
  roleStake : s'.roleStake = s.roleStake
  tally : ∀ id r, r ≠ .coreDeveloper → s'.tallyOf id r = s.tallyOf id r

theorem FilingFrame.filed (info : ProjectInfo) (bal : Test.currency.Ledger)
    (h : FilingFrame s s') : FilingFrame s (filed info bal s') where
  projects := h.projects
  stakeholders := h.stakeholders
  roleStake := h.roleStake
  tally id r hr :=
    (tallyOf_recordVote_other _ _ _ _ _ (by simp [developer, hr])).trans (h.tally id r hr)

theorem Filing.run (h : Filing 0 info s) :
    ∃ tr s', Verigov.exec (List.replicate u32Max (Mock.propose 8 1)) s = some (tr, s') ∧
      Filing u32Max info s' ∧ FilingFrame s s' := by
  obtain ⟨tr, s', hexec, hs', hframe⟩ := Filing.exec (n := u32Max) (J := FilingFrame s)
    (fun info bal _ hm => hm.filed info bal) h ⟨rfl, rfl, rfl, fun _ _ _ => rfl⟩
    (by rw [Nat.zero_add])
  rw [Nat.zero_add] at hs'
  exact ⟨tr, s', hexec, hs', hframe⟩

def Unfiled (s : State Test) : Prop :=
  (s.projects.get 0).map (fun info => (info.policy.requiredRoles.val, info.policy.enactmentDelay,
      info.proposalBond)) = some ([⟨.coreDeveloper, half⟩], 2, 0) ∧
    s.stakeholders.get (0, (1 : Nat)) = some developer ∧
    s.stakeholders.get (0, (2 : Nat)) = some developer ∧
    s.stakeholders.get (0, (8 : Nat)) = some ⟨.buildService, 1000⟩ ∧
    s.roleStakeOf 0 .coreDeveloper = 3000 ∧ ProposalIdsBelowMax s ∧ s.nextProposalId = 0 ∧
    s.blockNumber = 1 ∧ Solvent s.balances

instance (s : State Test) : Decidable (Unfiled s) := inferInstanceAs (Decidable (_ ∧ _))

theorem Unfiled.filing (h : Unfiled s) (hr : Reaches tr s) : ∃ info, Filing 0 info s := by
  obtain ⟨hproject, hfirst, hsecond, hbuilder, hstake, hids, hnext, hblock, hfunds⟩ := h
  obtain ⟨info, hproj, hpolicy⟩ := Option.map_eq_some_iff.mp hproject
  simp only [Prod.mk.injEq] at hpolicy
  obtain ⟨hfresh, hcounted⟩ := hr.freshProposal hids
  have hnone : ∀ id, s.proposals.get id = none :=
    fun id => hcounted id (by rw [hnext]; exact Nat.zero_le id)
  have hballots := hr.ballotsOnProposals
  have hslot : ∀ b, s.pendingAt b = .empty := by
    intro b
    apply BoundedVec.eq_empty
    apply List.eq_nil_iff_forall_not_mem.mpr
    intro id hid
    have hdue := ((hr.agrees hfresh).mem_iff b id).mp hid
    simp [due, hnone] at hdue
  exact ⟨info, {
    roles := hpolicy.1
    delay := hpolicy.2.1
    bond := hpolicy.2.2
    project := hproj
    first := hfirst
    second := hsecond
    builder := hbuilder
    stake := hstake
    next := hnext
    block := hblock
    slot := hslot
    tally := fun id _ => hballots.tally id _ (hnone id)
    vote := fun id a _ => hballots.vote id a (hnone id)
    funds := hfunds }⟩

theorem filing_genesis :
    ∃ info, Filing 0 info (after [genesis .coreDeveloper (percent 50) 2 0]) :=
  Unfiled.filing (by decide +kernel) (reaches _)

theorem Filing.next_filed (h : Filing u32Max info s) (bal : Test.currency.Ledger) :
    (Mock.filed info bal s).nextProposalId = u32Max := by
  show saturatingAdd u32Max s.nextProposalId 1 = u32Max
  rw [h.next]
  rfl

/-- The last id is given out, and the one aye on it is that of its proposer. -/
structure LastFiled (info : ProjectInfo) (s : State Test) : Prop where
  roles : info.policy.requiredRoles.val = [⟨.coreDeveloper, percent 50⟩]
  bond : info.proposalBond = 0
  project : s.projects.get 0 = some info
  first : s.stakeholders.get (0, (1 : Nat)) = some developer
  builder : ∃ n, s.stakeholders.get (0, (8 : Nat)) = some ⟨.buildService, n⟩
  stake : s.roleStakeOf 0 .coreDeveloper = 3000
  next : s.nextProposalId = u32Max
  tally : s.tallyOf u32Max .coreDeveloper = { ayes := 1000 }
  vote : s.votes.get (u32Max, (1 : Nat)) = some true
  funds : Solvent s.balances

theorem Filing.lastFiled (h : Filing u32Max info s) (hfunds : Solvent bal) :
    LastFiled info (Mock.filed info bal s) where
  roles := h.roles
  bond := h.bond
  project := h.project
  first := h.first
  builder := ⟨1000, h.builder⟩
  stake := h.stake
  next := h.next_filed bal
  tally := h.tally_filed bal
  vote := by
    rw [← h.next]
    exact StorageMap.get_insert_self ..
  funds := hfunds

theorem LastFiled.propose (hs : LastFiled info s) :
    ∃ bal, perform (Mock.propose 8 1) s = some (Mock.filed info bal s) := by
  obtain ⟨n, hb⟩ := hs.builder
  obtain ⟨bal, -, hperform⟩ :=
    perform_proposeIn 1 hs.project hs.bond hs.first rfl hb rfl hs.funds
  have htally : (Mock.filed info bal s).tallyOf u32Max .coreDeveloper = { ayes := 1000 } := by
    have hrecord : (Mock.filed info bal s).tallyOf s.nextProposalId .coreDeveloper =
        (s.tallyOf s.nextProposalId .coreDeveloper).record Test.maxBalance
          (s.votes.get (s.nextProposalId, (1 : Nat))) 1000 true := tallyOf_recordVote ..
    rw [hs.next, hs.tally, hs.vote] at hrecord
    exact hrecord.trans (by decide)
  have hmet : meetsQuorums 0 info s.nextProposalId (Mock.filed info bal s) = false := by
    have hstake : (Mock.filed info bal s).roleStakeOf 0 .coreDeveloper = 3000 := hs.stake
    rw [hs.next]
    simp only [Verigov.meetsQuorums, hs.roles, List.all_cons, List.all_nil, hstake, htally]
    decide
  refine ⟨bal, hperform.trans ?_⟩
  exact congrArg Except.toOption (doVote_of_not_met addProposal_get_self rfl hmet)

end Mock

/-- The release after the last one succeeds and adds no proposal. -/
theorem last_id_overwritten :
    ∃ tr s s', exec ([Mock.genesis .coreDeveloper (Mock.percent 50) 2 0] ++
        List.replicate u32Max (Mock.propose 8 1) ++ [Mock.propose 8 1]) Mock.start =
          some (tr, s) ∧
      Reaches tr s ∧ Numbered s ∧ perform (Mock.propose 8 1) s = some s' ∧
      (s.proposals.get u32Max).isSome ∧ ¬ AddsProposal s s' := by
  obtain ⟨info, hgenesis⟩ := Mock.filing_genesis
  obtain ⟨tr, s, h1, hs, -⟩ := hgenesis.run
  obtain ⟨bal, hfunds, hpropose⟩ := hs.propose
  obtain ⟨bal', hagain⟩ := (hs.lastFiled hfunds).propose
  have h2 : exec [Mock.propose 8 1] s =
      some ([(s, Mock.propose 8 1)], Mock.filed info bal s) := by
    simp [exec, hpropose]
  have hexec := exec_append (exec_append (Mock.exec_after _) h1) h2
  have hreach : Reaches _ (Mock.filed info bal s) := ⟨_, Mock.init_start, exec_run hexec⟩
  have hused : (Mock.filed info bal s).proposals.get u32Max = some (Mock.release info s) :=
    hs.next ▸ Mock.filed_get info bal s
  refine ⟨_, _, _, hexec, hreach, hreach.numbered, hagain, by simp [hused], ?_⟩
  cases perform_step hagain with
  | call origin c h =>
    rw [newRelease_adds h, hs.next_filed, hused]
    simp

end Verigov
