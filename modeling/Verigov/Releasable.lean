import Verigov.Reuse
import Verigov.Tally

/-!
# Projects stay releasable

Genesis requires stake in every role that has to approve, and later only slashes
lower it. A slash takes a fraction of one builder's stake, rounded down: less than
the whole leaves something of it, so only a slash of all can leave a role without
stake, and the role is that of the build services. With stake in every required
role, the ayes of all who hold it are enough, whatever was slashed.
-/

namespace Verigov

open State Transition

variable {T : Config} {s s' : State T} {id p : Nat} {info : ProjectInfo}

/-- A required role without stake is that of the build services, and the project
slashes all. -/
def Staked (s : State T) : Prop :=
  ∀ p info, s.projects.get p = some info → ∀ rq ∈ info.policy.requiredRoles.val,
    s.roleStakeOf p rq.role = 0 →
      rq.role = .buildService ∧ info.slashing.sigmaNeg.parts = Perbill.accuracy

-- ---------------------------------------------------------------------------
-- Slashes and role stakes
-- ---------------------------------------------------------------------------

theorem Slashes.whole (hburn : T.currency.BurnAtMost) (hs : RegistryExact s)
    (h : Slashes s id s' pr info y slashed) (hrole : y.role = .buildService)
    (hzero : s'.roleStakeOf pr.projectId .buildService = 0)
    (hstake : s.roleStakeOf pr.projectId .buildService ≠ 0) :
    info.slashing.sigmaNeg.parts = Perbill.accuracy := by
  by_contra hparts
  have hlt : info.slashing.sigmaNeg.parts < Perbill.accuracy :=
    Nat.lt_of_le_of_ne info.slashing.sigmaNeg.le_accuracy hparts
  obtain ⟨b, hb⟩ := h.burned
  have hle : slashed ≤ info.slashing.sigmaNeg.mulFloor y.stake := hburn _ _ _ _ _ _ hb
  have hown : y.stake ≤ s.registered pr.projectId .buildService :=
    le_roleSum (w := fun _ x => x.stake) h.builder hrole
  rw [h.roleStakeOf_eq, if_pos ⟨rfl, rfl⟩] at hzero
  rw [hs.roleStake] at hzero hstake
  rcases Nat.eq_zero_or_pos y.stake with hy | hy
  · have hfloor := info.slashing.sigmaNeg.mulFloor_le y.stake
    omega
  · have hfloor := Perbill.mulFloor_lt hlt hy
    omega

theorem Slashes.staked (hburn : T.currency.BurnAtMost) (hs : RegistryExact s)
    (h : Slashes s id s' pr info y slashed) (hrole : y.role = .buildService)
    (hproj : s'.projects = s.projects) (hst : Staked s) : Staked s' := by
  intro p info' hp rq hrq hzero
  rw [hproj] at hp
  by_cases hold : s.roleStakeOf p rq.role = 0
  · exact hst p info' hp rq hrq hold
  · by_cases hk : p = pr.projectId ∧ rq.role = .buildService
    · obtain ⟨rfl, hr⟩ := hk
      rw [h.project] at hp
      cases hp
      rw [hr] at hzero hold
      exact ⟨hr, h.whole hburn hs hrole hzero hold⟩
    · rw [h.roleStakeOf_eq, if_neg hk] at hzero
      exact absurd hzero hold

theorem projectGenesis_staked
    (h : projectGenesis origin name xs policy slashing bond s = .ok s') (hs : Staked s) :
    Staked s' := by
  obtain ⟨s1, -, -, hs1, hroles, rfl⟩ := projectGenesis_ok h
  intro p info hp rq hrq hzero
  have hget := (StorageMap.get_insert s1.projects s.nextProjectId p
    ⟨name, policy, slashing, bond⟩).symm.trans hp
  split at hget
  · rename_i hid
    cases hget
    subst hid
    exact absurd hzero (hroles rq hrq)
  · rename_i hid
    obtain ⟨-, hrole, -⟩ := registerAll_other hs1 hid
    rw [(registerAll_frame hs1).projects] at hget
    exact hs p info hget rq hrq ((hrole rq.role).symm.trans hzero)

theorem Step.staked (hburn : T.currency.BurnAtMost) (h : Step s a s') (hf : FreshProject s a)
    (hp : PartiesRegistered s) (hreg : RegistryExact s) (hs : Staked s) : Staked s' := by
  rcases h.projects with ⟨hproj, -⟩ | ⟨_, _, _, _, _, _, rfl, hok, -⟩
  · rcases h.registry with ⟨-, hrole⟩ | ⟨_, _, _, _, _, _, s1, rfl, hs1, -, hrole⟩ |
      ⟨_, id, _, pr, info, y, slashed, -, hsl⟩
    · intro p info hget rq hrq hzero
      unfold State.roleStakeOf at hzero
      rw [hrole] at hzero
      exact hs p info (hproj ▸ hget) rq hrq hzero
    · intro p info hget rq hrq hzero
      rw [hproj] at hget
      have hne : p ≠ s.nextProjectId := by
        rintro rfl
        rw [hf rfl] at hget
        cases hget
      unfold State.roleStakeOf at hzero
      rw [hrole] at hzero
      obtain ⟨-, hsame, -⟩ := registerAll_other hs1 hne
      exact hs p info hget rq hrq ((hsame rq.role).symm.trans hzero)
    · exact hsl.staked hburn hreg (hp.builder hsl) hproj hs
  · exact projectGenesis_staked hok hs

theorem Reaches.staked (hback : T.currency.Backed T.maxBalance) (hhold : T.currency.HoldExact)
    (hburn : T.currency.BurnAtMost) (h : Reaches tr s) (hf : Along FreshProject tr) :
    Staked s := by
  refine h.induct (I := fun _ t => Staked t) hf ?_ ?_
  · rintro _ ⟨n, b, rfl, -⟩ p info hp
    simp at hp
  · intro tr m a t hr halong hst hfresh hm
    exact hst.staked hburn hfresh hr.partiesRegistered
      (hr.registryExact hback hhold hburn halong) hm

-- ---------------------------------------------------------------------------
-- All ayes
-- ---------------------------------------------------------------------------

/-- Ayes of the whole stake meet every quorum, also where a product saturates. -/
theorem RoleQuorum.met_of_all {rq : RoleQuorum} (htotal : total ≠ 0) (h : total ≤ ayes) :
    rq.met total ayes = true := by
  rw [RoleQuorum.met_eq_true]
  refine ⟨htotal, ?_⟩
  rw [saturatingMul_comm u128Max (saturatedInto u128Max ayes)]
  exact saturatingMul_mono rq.quorum.le_accuracy (saturatedInto_mono h)

def AllAyes (p : Nat) (info : ProjectInfo) (id : Nat) (s : State T) : Prop :=
  ∀ a x, s.stakeholders.get (p, a) = some x →
    (∃ rq ∈ info.policy.requiredRoles.val, rq.role = x.role) → s.votes.get (id, a) = some true

theorem TallyOk.meetsQuorums (h : TallyOk tr s id p) (hreg : RegistryExact s)
    (hstake : ∀ rq ∈ info.policy.requiredRoles.val, s.roleStakeOf p rq.role ≠ 0)
    (hall : AllAyes p info id s) : meetsQuorums p info id s = true := by
  simp only [Verigov.meetsQuorums, List.all_eq_true]
  intro rq hrq
  apply RoleQuorum.met_of_all (hstake rq hrq)
  have hside : s.voteStake p id rq.role (some true) = s.registered p rq.role := by
    apply roleSum_congr
    intro a x hx hr
    simp [hall a x hx ⟨rq, hrq, hr.symm⟩]
  have hle := h.ayes rq.role
  rwa [hside, ← hreg.roleStake] at hle

/-- A project stays releasable unless it slashes all: where no proposal id is used
twice, a required role without stake is that of the build services of a project with a
slash of 100%, and with stake in all required roles the ayes of everyone who holds it
meet the quorums. -/
theorem project_releasable (hback : T.currency.Backed T.maxBalance)
    (hhold : T.currency.HoldExact) (hburn : T.currency.BurnAtMost) (h : Reaches tr s)
    (hf : Along FreshProposal tr) (hids : ProjectIdsBelowMax s)
    (hp : s.projects.get p = some info) :
    (∀ rq ∈ info.policy.requiredRoles.val, s.roleStakeOf p rq.role = 0 →
      rq.role = .buildService ∧ info.slashing.sigmaNeg.parts = 1000000000) ∧
    ((∀ rq ∈ info.policy.requiredRoles.val, s.roleStakeOf p rq.role ≠ 0) →
      ∀ id pr, s.proposals.get id = some pr → pr.projectId = p → AllAyes p info id s →
        meetsQuorums p info id s = true) := by
  obtain ⟨hf', -⟩ := h.freshProject hids
  have hreg := h.registryExact hback hhold hburn hf'
  refine ⟨h.staked hback hhold hburn hf' p info hp, fun hstake id pr hpr hproj hall => ?_⟩
  have hok := h.tallyOk hback hhold hburn hf hf' hpr
  rw [hproj] at hok
  exact hok.meetsQuorums hreg hstake hall

theorem AllAyes.of_role (hroles : info.policy.requiredRoles.val = [⟨r, q⟩])
    (h : ∀ k x, s.stakeholders.get k = some x → k.1 = p ∧ x.role = r →
      s.votes.get (id, k.2) = some true) : AllAyes p info id s := by
  rintro a x hx ⟨rq, hrq, hr⟩
  rw [hroles, List.mem_singleton] at hrq
  subst hrq
  exact h (p, a) x hx ⟨rfl, hr.symm⟩

theorem project_releasable_slashed :
    let s := Mock.after [Mock.genesis .buildService (Mock.percent 100) 9 0, Mock.propose 8 1,
      Mock.vote 8 0 true, Mock.vote 9 0 true, Mock.propose 9 2, Mock.challenge 1 3]
    s.roleStakeOf 0 .buildService = 1500 ∧
      ∃ info, s.projects.get 0 = some info ∧ meetsQuorums 0 info 0 s = true := by
  intro s
  have hstake : s.roleStakeOf 0 .buildService = 1500 := by decide +kernel
  obtain ⟨info, hp, hroles⟩ := Option.map_eq_some_iff.mp (show (s.projects.get 0).map
    (fun info => info.policy.requiredRoles.val) = some [⟨.buildService, Mock.percent 100⟩] by
      decide +kernel)
  obtain ⟨pr, hpr, hproj⟩ := Option.map_eq_some_iff.mp (show (s.proposals.get 0).map
    (fun pr => pr.projectId) = some 0 by decide +kernel)
  have h := project_releasable Ledger.backed Ledger.holdExact Ledger.burnAtMost (Mock.reaches _)
    (by decide +kernel) (by decide +kernel) hp
  refine ⟨hstake, info, hp, h.2 ?_ 0 pr hpr hproj (.of_role hroles (by decide +kernel))⟩
  intro rq hrq
  rw [hroles, List.mem_singleton] at hrq
  rw [hrq, hstake]
  decide

/-- With an id that went from one project to another, both trustees of project `1`
have an aye in storage, and the tally counts one of them. -/
theorem all_ayes_short_of_quorum :
    ∃ tr s info pr, exec ([Mock.genesis .coreDeveloper (Mock.percent 50) 2 0, Mock.trustees] ++
        List.replicate u32Max (Mock.propose 8 1) ++
        [Mock.propose 8 1, Mock.vote 6 u32Max true, Mock.proposeIn 1 8 2] ++
        [Mock.vote 7 u32Max true, Mock.vote 6 u32Max true]) Mock.start = some (tr, s) ∧
      Reaches tr s ∧ ProjectIdsBelowMax s ∧ s.projects.get 1 = some info ∧
      (∀ rq ∈ info.policy.requiredRoles.val, s.roleStakeOf 1 rq.role ≠ 0) ∧
      s.proposals.get u32Max = some pr ∧ pr.projectId = 1 ∧ AllAyes 1 info u32Max s ∧
      meetsQuorums 1 info u32Max s = false := by
  obtain ⟨tr, s, hexec, hreach, hs, hst, hproj⟩ := Mock.exists_shared
  obtain ⟨m, hv, hm⟩ := hs.vote_short (a := 7) (by decide) (by decide)
  obtain ⟨t, hv', ht⟩ := hm.vote_short (a := 6) (by decide) (by decide)
  have hlast : exec [Mock.vote 7 u32Max true, Mock.vote 6 u32Max true] s =
      some ([(s, Mock.vote 7 u32Max true), (m, Mock.vote 6 u32Max true)], t) := by
    simp [exec, perform, Mock.vote, dispatch, hv, hv', Except.toOption]
  have hrun := exec_append hexec hlast
  obtain ⟨info, hget, hroles⟩ := ht.project
  obtain ⟨pr, hpr, hp, -⟩ := ht.proposal
  have hproj' : t.projects = Mock.twoProjects.projects :=
    (vote_frame hv').projects.trans ((vote_frame hv).projects.trans hproj)
  have hst' : t.stakeholders = Mock.twoProjects.stakeholders :=
    (vote_frame hv').stakeholders.trans ((vote_frame hv).stakeholders.trans hst)
  refine ⟨_, t, info, pr, hrun, hreach.append (exec_run hlast), ?_, hget, ?_, hpr, hp, ?_, ?_⟩
  · have hmax : ProjectIdsBelowMax Mock.twoProjects := by decide +kernel
    intro p hp
    exact hmax p (hproj' ▸ hp)
  · intro rq hrq
    rw [hroles, List.mem_singleton] at hrq
    rw [hrq, ht.stake]
    decide
  · have htrustees : ∀ k x, Mock.twoProjects.stakeholders.get k = some x →
        k.1 = 1 ∧ x.role = .communityTrustee → k.2 ∈ [6, 7] := by
      decide +kernel
    refine .of_role hroles fun k x hx hk => ?_
    have ha := htrustees k x (hst' ▸ hx) hk
    rw [ht.vote k.2 ha]
    simp only [List.mem_cons, List.not_mem_nil, or_false] at ha
    rcases ha with ha | ha <;> simp [ha, Function.update]
  · rw [ht.meetsQuorums hroles]
    decide

end Verigov
