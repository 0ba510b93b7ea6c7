import Verigov.Acceptance
import Verigov.Tally

/-!
# Release authorization

Eq. 1 as it is meant: at the enactment block, the stakes registered for the aye
voters of a required role reach its quorum of all the stakes registered for it.
The pallet evaluates it on tallies, which a slash does not lower. So it holds as
long as no counter-attestation takes stake from a builder whose aye counts on
another open proposal; then the tallies that Eq. 1 reads are exact.
-/

namespace Verigov

open State Transition

variable {T : Config} {s s' : State T} {id : Nat}

def NoOtherAye (s : State T) (p id : Nat) (who : T.AccountId) : Prop :=
  ∀ id' pr', s.proposals.get id' = some pr' → id' ≠ id → pr'.projectId = p →
    pr'.status.isOpen = true → s.votes.get (id', who) ≠ some true

instance (s : State T) (p id : Nat) (who : T.AccountId) : Decidable (NoOtherAye s p id who) := by
  unfold NoOtherAye
  infer_instance

/-- A counter-attestation takes nothing from a builder whose aye stands on another
open proposal of a project that asks its build services. -/
def SlashSparesAyes (s : State T) (a : Action T) : Prop :=
  ∀ id ∈ a.challenged, ∀ pr ∈ s.proposals.get id, ∀ info ∈ s.projects.get pr.projectId,
    ∀ y ∈ s.stakeholders.get (pr.projectId, pr.attestation.builder),
      info.slashing.sigmaNeg.mulFloor y.stake = 0 ∨
      (∀ rq ∈ info.policy.requiredRoles.val, rq.role ≠ .buildService) ∨
      NoOtherAye s pr.projectId id pr.attestation.builder

instance (s : State T) (a : Action T) : Decidable (SlashSparesAyes s a) := by
  unfold SlashSparesAyes
  infer_instance

/-- The ayes of role `r` are the stakes its aye voters have now. -/
def AyesExact (s : State T) (p id : Nat) (r : Role) : Prop :=
  (s.tallyOf id r).ayes = s.voteStake p id r (some true)

def AyesStand (s : State T) : Prop :=
  ∀ id pr info, s.proposals.get id = some pr → pr.status.isOpen = true →
    s.projects.get pr.projectId = some info → ∀ rq ∈ info.policy.requiredRoles.val,
    AyesExact s pr.projectId id rq.role

-- ---------------------------------------------------------------------------
-- Steps
-- ---------------------------------------------------------------------------

theorem AyesExact.unused (hb : BallotsOnProposals s) (hn : s.proposals.get id = none) (p : Nat)
    (r : Role) : AyesExact s p id r := by
  unfold AyesExact
  rw [hb.tally id r hn]
  symm
  apply roleSum_eq_zero
  intro a x _
  simp [hb.vote id a hn]

theorem AyesExact.cast {c : Cast T} (h : AyesExact s c.projectId c.proposalId r)
    (hd : c.Done s s') (hclip : c.NoClip s) : AyesExact s' c.projectId c.proposalId r := by
  have hmoved := hd.ayes hclip r
  unfold AyesExact at h ⊢
  omega

theorem Slashes.voteStake {id' : Nat} (h : Slashes s id s' pr info y slashed)
    (hvotes : ∀ a, s'.votes.get (id', a) = s.votes.get (id', a))
    (hspared : pr.projectId = p → y.role = r → slashed = 0 ∨
      s.votes.get (id', pr.attestation.builder) ≠ some true) :
    s'.voteStake p id' r (some true) = s.voteStake p id' r (some true) := by
  have hsum := h.roleSum p r fun a x => if s.votes.get (id', a) = some true then x.stake else 0
  unfold State.voteStake
  simp only [hvotes]
  by_cases hk : pr.projectId = p ∧ y.role = r
  · rcases hspared hk.1 hk.2 with h0 | hno
    · subst h0
      simpa using hsum
    · simpa [hno] using hsum
  · simpa [hk] using hsum

theorem SlashSparesAyes.voteStake (hburn : T.currency.BurnAtMost) (hk : SlashSparesAyes s a)
    {id' : Nat} (hc : a.challenged = some id') (hsl : Slashes s id' s' pr' info' y n)
    (hparties : PartiesRegistered s) (hvotes : ∀ a, s'.votes.get (id, a) = s.votes.get (id, a))
    (hpr : s'.proposals.get id = some pr) (ho : pr.status.isOpen = true)
    (hproj : s.projects.get pr.projectId = some info) (hrq : rq ∈ info.policy.requiredRoles.val) :
    s'.voteStake pr.projectId id rq.role (some true) =
      s.voteStake pr.projectId id rq.role (some true) := by
  have hid : id ≠ id' := by
    rintro rfl
    rw [hsl.proposals, StorageMap.get_insert_self] at hpr
    cases hpr
    cases ho
  rw [hsl.proposals, StorageMap.get_insert_ne _ _ hid] at hpr
  refine hsl.voteStake hvotes fun hp hr => ?_
  have hinfo := hsl.project
  rw [hp, hproj] at hinfo
  cases hinfo
  rcases hk id' hc pr' hsl.proposal _ hsl.project y hsl.builder with h0 | hno | hno
  · obtain ⟨b, hburned⟩ := hsl.burned
    have hle := hburn _ _ _ _ _ _ hburned
    exact .inl (by omega)
  · exact absurd (hr.symm.trans (hparties.builder hsl)) (hno rq hrq)
  · exact .inr (hno id pr hpr hid hp.symm ho)

theorem AyesStand.before (hs : AyesStand s) (h : Step s a s') (hf : FreshProposal s a)
    (hf' : FreshProject s a) (hb : BallotsOnProposals s) (hp : HasProject s)
    (hpr : s'.proposals.get id = some pr) (ho : pr.status.isOpen = true)
    (hproj : s'.projects.get pr.projectId = some info) (hrq : rq ∈ info.policy.requiredRoles.val) :
    AyesExact s pr.projectId id rq.role ∧ s.projects.get pr.projectId = some info := by
  rcases h.proposal id with hfiled | ⟨-, hnone⟩ | ⟨pr0, status, h0, h1, hm⟩
  · obtain ⟨rfl, hproj0, -, -, -, -, -, -, -, hput⟩ := hfiled
    rw [hput] at hpr
    cases hpr
    refine ⟨.unused hb (hf rfl) _ _, ?_⟩
    rwa [h.projects_get hf' (by simp [newProposal, hproj0])] at hproj
  · rw [hnone] at hpr
    cases hpr
  · rw [h1] at hpr
    cases hpr
    rw [h.projects_get hf' (hp id pr0 h0)] at hproj
    refine ⟨hs id pr0 info h0 ?_ hproj rq hrq, hproj⟩
    by_contra hclosed
    have hsame := hm.closed (by simpa using hclosed)
    exact hclosed (hsame ▸ ho)

theorem Step.ayesStand (hburn : T.currency.BurnAtMost) (h : Step s a s') (hf : FreshProposal s a)
    (hf' : FreshProject s a) (hk : SlashSparesAyes s a) (hb : BallotsOnProposals s)
    (hp : HasProject s) (hparties : PartiesRegistered s)
    (hclip : ∀ c, castOf s a = some c → c.NoClip s) (hs : AyesStand s) : AyesStand s' := by
  intro id pr info hpr ho hproj rq hrq
  obtain ⟨hexact, hproj0⟩ := hs.before h hf hf' hb hp hpr ho hproj hrq
  rcases h.ballotOn id with ⟨c, hc, hd, rfl⟩ | ⟨-, hvotes, htally⟩
  · obtain ⟨pr1, hpr1, hproj1, -⟩ := hd.proposal
    rw [hpr] at hpr1
    cases hpr1
    rw [hproj1] at hexact ⊢
    exact hexact.cast hd (hclip c hc)
  · unfold AyesExact at hexact ⊢
    rw [htally, hexact]
    symm
    rcases h.roleSum hf' (by rw [hproj0]; rfl) with hsum | ⟨id', pr', info', y, n, hc, hsl⟩
    · unfold State.voteStake
      simp only [hvotes, hsum]
    · exact hk.voteStake hburn hc hsl hparties hvotes hpr ho hproj0 hrq

-- ---------------------------------------------------------------------------
-- Runs
-- ---------------------------------------------------------------------------

theorem Reaches.ayesStand (hback : T.currency.Backed T.maxBalance)
    (hhold : T.currency.HoldExact) (hburn : T.currency.BurnAtMost) (h : Reaches tr s)
    (hf : Along FreshProposal tr) (hf' : Along FreshProject tr) (hk : Along SlashSparesAyes tr) :
    AyesStand s := by
  refine h.induct (I := fun _ t => AyesStand t) ((hf.and hf').and hk) ?_ ?_
  · rintro _ ⟨n, b, rfl, -⟩ id pr info hpr
    simp at hpr
  · intro tr m a t hreach halong hst hstep hm
    have hfresh := halong.mono fun _ _ h => h.1
    refine hst.ayesStand hburn hstep.1.1 hstep.1.2 hstep.2 hreach.ballotsOnProposals
      hreach.hasProject hreach.partiesRegistered (fun c hc => ?_) hm
    exact hreach.noClip hback hhold hburn (hfresh.mono fun _ _ h => h.1)
      (hfresh.mono fun _ _ h => h.2) hstep.1.1 hc

/-- Eq. 1 over the integers, on the stakes registered and the votes recorded: every
required role of the proposal's project, if its stake times `10^9` is representable,
has its quorum in ayes. -/
def Authorized (s : State T) (id : Nat) : Prop :=
  ∃ pr info, s.proposals.get id = some pr ∧ s.projects.get pr.projectId = some info ∧
    ∀ rq ∈ info.policy.requiredRoles.val,
      Perbill.accuracy * s.registered pr.projectId rq.role < 2 ^ 128 →
      rq.quorum.parts * s.registered pr.projectId rq.role ≤
        s.voteStake pr.projectId id rq.role (some true) * Perbill.accuracy

theorem RoleQuorum.met_exact {rq : RoleQuorum} (h : rq.met total ayes = true)
    (hsmall : Perbill.accuracy * total < 2 ^ 128) :
    rq.quorum.parts * total ≤ ayes * Perbill.accuracy := by
  have hle := (RoleQuorum.met_eq_true.mp h).2
  have hparts := Nat.mul_le_mul_right total rq.quorum.le_accuracy
  have htotal : saturatedInto u128Max total = total := by
    unfold saturatedInto u128Max
    unfold Perbill.accuracy at hsmall
    omega
  have hayes : saturatedInto u128Max ayes * Perbill.accuracy ≤ ayes * Perbill.accuracy :=
    Nat.mul_le_mul_right _ (Nat.min_le_left _ _)
  rw [htotal] at hle
  unfold saturatingMul Perbill.deconstruct u128Max at hle
  unfold u128Max at hayes
  unfold Perbill.accuracy at *
  omega

theorem HookFrame.voteStake (h : HookFrame s s') (p id : Nat) (r : Role) (v : Option Bool) :
    s'.voteStake p id r v = s.voteStake p id r v := by
  unfold State.voteStake
  rw [roleSum_of_stakeholders h.stakeholders, h.votes]

/-- In a run in which no id is used twice and every slash spares the ayes that
count elsewhere: whatever the hook of the next block appends to the log is authorized
at that moment, after it has worked off `before`. -/
theorem release_authorized (hback : T.currency.Backed T.maxBalance)
    (hhold : T.currency.HoldExact) (hburn : T.currency.BurnAtMost) (h : Reaches tr s)
    (hf : Along FreshProposal tr) (hf' : Along FreshProject tr) (hk : Along SlashSparesAyes tr)
    (hlog : (hookState s (before ++ [id])).releaseLog ≠ (hookState s before).releaseLog) :
    Authorized (hookState s before) id := by
  have hfr := (hookState_frame s before).1
  have hstand := h.ayesStand hback hhold hburn hf hf' hk
  have hexact := h.registryExact hback hhold hburn hf'
  rw [hookState_append] at hlog
  rcases enact_cases id (s.blockNumber + 1) (hookState s before) with
    ⟨pr, e, info, hpr, hst, hproj, ⟨hmet, -⟩ | ⟨-, heq⟩⟩ | ⟨heq, -⟩
  · refine ⟨pr, info, hpr, hproj, fun rq hrq => ?_⟩
    have hpr0 := hookState_approved hpr hst
    rw [hfr.projects] at hproj
    rw [hfr.meetsQuorums] at hmet
    have hrq_met := List.all_eq_true.mp hmet rq hrq
    have hayes : (s.tallyOf id rq.role).ayes = _ :=
      hstand id pr info hpr0 (by rw [hst]; rfl) hproj rq hrq
    rw [hexact.roleStake, hayes] at hrq_met
    have hreg : (hookState s before).registered pr.projectId rq.role = _ :=
      roleSum_of_stakeholders hfr.stakeholders
    rw [hreg, hfr.voteStake]
    exact RoleQuorum.met_exact hrq_met
  · rw [heq] at hlog
    exact absurd rfl hlog
  · rw [heq] at hlog
    exact absurd rfl hlog

theorem release_authorized_slashed :
    let as := [Mock.genesis .buildService (Mock.percent 50) 5 0, Mock.propose 8 1,
      Mock.vote 8 0 true, Mock.propose 9 2, Mock.challenge 1 3] ++ List.replicate 4 .block
    (hookState (Mock.after as) [0]).releaseLog ≠ (hookState (Mock.after as) []).releaseLog ∧
      Authorized (hookState (Mock.after as) []) 0 := by
  intro as
  have hlog : (hookState (Mock.after as) ([] ++ [0])).releaseLog ≠
      (hookState (Mock.after as) []).releaseLog :=
    ne_of_apply_ne (StorageMap.get · (0, 0)) (by decide +kernel)
  exact ⟨hlog, release_authorized Ledger.backed Ledger.holdExact Ledger.burnAtMost (Mock.reaches as)
    (by decide +kernel) (by decide +kernel) (by decide +kernel) hlog⟩

/-- The aye of `8` on the first release is tallied at 1000. For the second, `8` is
slashed to 500 of 1500, and the first is still released, with a third of the stake
where the quorum is a half. -/
theorem release_not_authorized_after_slash :
    let s := Mock.after ([Mock.genesis .buildService (Mock.percent 50) 10 0, Mock.propose 8 1,
      Mock.vote 8 0 true, Mock.propose 8 2, Mock.challenge 1 3] ++ List.replicate 9 .block)
    Reachable s ∧ (s.pendingAt (s.blockNumber + 1)).val = [0] ∧
      (hookState s [0]).releaseLog ≠ (hookState s []).releaseLog ∧
      ¬ Authorized (hookState s []) 0 := by
  intro s
  refine ⟨⟨_, Mock.reaches _⟩, by decide +kernel, ?_, ?_⟩
  · exact ne_of_apply_ne (StorageMap.get · (0, 0)) (by decide +kernel)
  · rintro ⟨pr, info, hpr, hproj, h⟩
    have hp : ((hookState s []).proposals.get 0).map (·.projectId) = some 0 := by decide +kernel
    rw [hpr, Option.map_some, Option.some.injEq] at hp
    have hroles : ((hookState s []).projects.get 0).map (·.policy.requiredRoles.val) =
        some [⟨.buildService, Mock.percent 50⟩] := by decide +kernel
    rw [hp] at hproj h
    rw [hproj, Option.map_some, Option.some.injEq] at hroles
    rw [hroles] at h
    exact absurd (h _ (List.mem_singleton.mpr rfl) (by decide +kernel)) (by decide +kernel)

end Verigov
