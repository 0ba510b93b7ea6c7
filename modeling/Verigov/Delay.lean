import Verigov.Acceptance
import Verigov.Exhaustion

/-!
# The enactment delay is served

What the hook enacts was approved a full delay before, by a vote or by its own
submission, and has met the quorums ever since. Between the two, votes and
slashes go on: a vote that breaks a quorum revokes the approval and takes it off
the schedule, and a slash can only lower the denominators. All of it rests on an
id standing for one proposal. When the counter is exhausted and an id is used
again, the slot of the old approval is still there.
-/

namespace Verigov

open State Transition Agenda

variable {T : Config} {s s' : State T} {id : Nat}

-- ---------------------------------------------------------------------------
-- Eq. 1 under falling denominators
-- ---------------------------------------------------------------------------

theorem Step.roleStakeOf_le (h : Step s a s') (hf : FreshProject s a)
    (hp : (s.projects.get p).isSome) (r : Role) : s'.roleStakeOf p r ≤ s.roleStakeOf p r := by
  rcases h.registry with ⟨-, hrs⟩ | ⟨_, _, _, _, _, _, s1, rfl, hs1, -, hrs⟩ |
    ⟨_, id, _, pr, info, y, slashed, -, hsl⟩
  · unfold roleStakeOf
    rw [hrs]
  · have hne : p ≠ s.nextProjectId := by
      rintro rfl
      rw [hf rfl] at hp
      cases hp
    have hsame := (registerAll_other hs1 hne).2.1 r
    unfold roleStakeOf at hsame ⊢
    rw [hrs, hsame]
  · unfold roleStakeOf
    rw [hsl.roleStake, StorageMap.getD_insert]
    split
    · rename_i hk
      cases hk
      exact Nat.sub_le _ _
    · exact Nat.le_refl _

-- ---------------------------------------------------------------------------
-- Approval
-- ---------------------------------------------------------------------------

/-- A vote on proposal `id`, which is in voting, or the `new_release` that files it. -/
def ApprovingCall (id : Nat) (s : State T) (a : Action T) : Prop :=
  (∃ origin aye pr, a = .call origin (.vote id aye) ∧ s.proposals.get id = some pr ∧
      pr.status = .voting) ∨
    ∃ origin p version att cid sig,
      a = .call origin (.newRelease p version att cid sig) ∧ s.nextProposalId = id

/-- A vote that approves a proposal dates it a delay ahead. -/
theorem doVote_date (h : doVote id p info who voter aye now s = .ok s')
    (hpr : s.proposals.get id = some pr) (hvoting : pr.status = .voting)
    (hpr' : s'.proposals.get id = some pr') (hst : pr'.status = .approved b) :
    saturatingAdd T.maxBlockNumber now info.policy.enactmentDelay = b := by
  rcases (doVote_agenda h).date (due_eq_some.mpr ⟨pr', hpr', hst⟩) with hdue | hdate
  · rw [due_of_get hpr, hvoting] at hdue
    cases hdue
  · exact hdate.symm

/-- A proposal that is approved was so before, or has just been: then by a call that
dates it a delay ahead, and it meets the quorums. -/
theorem Step.approved (h : Step s a s') (hpr : s'.proposals.get id = some pr)
    (hst : pr.status = .approved b) :
    (s.proposals.get id = some pr ∧ a.challenged ≠ some id) ∨
      ApprovingCall id s a ∧ ∃ info, s.projects.get pr.projectId = some info ∧
        saturatingAdd T.maxBlockNumber s.blockNumber info.policy.enactmentDelay = b ∧
        AgreesAt s' id := by
  rcases h.proposal id with hfiled | ⟨-, h1⟩ | ⟨pr0, status, h0, h1, hm⟩
  · obtain ⟨rfl, -, -, -, -, -, -, -, -, hput⟩ := hfiled
    cases h with
    | call origin c h =>
      obtain ⟨who, info, x, y, balances, ho, hproj, -, -, -, -, -, -, hv⟩ := newRelease_ok h
      cases ho
      have hdate := doVote_date hv addProposal_get_self rfl hpr hst
      rw [hput] at hpr
      cases hpr
      exact .inr ⟨.inr ⟨_, _, _, _, _, _, rfl, rfl⟩, info, hproj, hdate,
        doVote_agreesAt hv addProposal_get_self rfl hproj⟩
  · rw [h1] at hpr
    cases hpr
  · rw [h1] at hpr
    cases hpr
    cases hm with
    | stay =>
      refine .inl ⟨h0, fun hc => ?_⟩
      obtain ⟨origin, rebuilt, rfl⟩ := Action.challenged_eq_some hc
      cases h with
      | call _ _ h =>
        obtain ⟨pr1, info, y, slashed, hsl⟩ := submitCounterAttestation_slashes h
        rw [hsl.proposals, StorageMap.get_insert_self] at h1
        have hstatus := congrArg (Option.map Proposal.status) h1
        simp only [Option.map_some, Option.some.injEq] at hstatus
        rw [hst] at hstatus
        cases hstatus
    | approve ha hvoting =>
      subst ha
      cases h with
      | call _ _ h =>
        obtain ⟨who, pr1, info, x, -, hpr1, -, -, hproj, -, hv⟩ := vote_ok h
        rw [h0] at hpr1
        cases hpr1
        exact .inr ⟨.inl ⟨_, _, _, rfl, h0, hvoting⟩, info, hproj,
          doVote_date hv h0 hvoting h1 hst, doVote_agreesAt hv h0 rfl hproj⟩
    | _ => cases hst

theorem Step.tallyOf_or_agrees (h : Step s a s') (hf : FreshProposal s a)
    (hpr : s.proposals.get id = some pr) :
    (∀ r, s'.tallyOf id r = s.tallyOf id r) ∨ AgreesAt s' id := by
  rcases h.ballotOn id with ⟨c, hc, -, rfl⟩ | ⟨-, -, htally⟩
  · right
    cases h with
    | call origin call h =>
      cases call with
      | vote id' aye =>
        obtain ⟨who, pr1, info, x, rfl, hpr1, -, -, hproj, hx, hv⟩ := vote_ok h
        simp only [castOf, hpr1, hx, Option.bind_eq_bind, Option.bind_some, Option.pure_def,
          Option.some.injEq] at hc
        subst hc
        exact doVote_agreesAt hv hpr1 rfl hproj
      | newRelease p version att cid sig =>
        obtain ⟨who, info, x, y, balances, rfl, -, hx, -⟩ := newRelease_ok h
        simp only [castOf, hx, Option.bind_eq_bind, Option.bind_some, Option.pure_def,
          Option.some.injEq] at hc
        subst hc
        rw [hf rfl] at hpr
        cases hpr
      | _ => cases origin <;> cases hc
    | _ => cases hc
  · exact .inl htally

-- ---------------------------------------------------------------------------
-- Since the approval
-- ---------------------------------------------------------------------------

/-- The proposal stands in `n` as it does in a later `s`, and Eq. 1 with it unless
a denominator is gone. -/
structure StoodIn (id : Nat) (pr : Proposal T.AccountId) (info : ProjectInfo) (s n : State T) :
    Prop where
  proposal : n.proposals.get id = some pr
  project : n.projects.get pr.projectId = some info
  quorate : Quorate pr.projectId info id n
  stake : ∀ r, s.roleStakeOf pr.projectId r ≤ n.roleStakeOf pr.projectId r

def ApprovedSince (id : Nat) (tr : Trace T) (s : State T) : Prop :=
  ∀ pr b, s.proposals.get id = some pr → pr.status = .approved b →
    ∃ info pre m act post, tr = pre ++ (m, act) :: post ∧ ApprovingCall id m act ∧
      saturatingAdd T.maxBlockNumber m.blockNumber info.policy.enactmentDelay = b ∧
      (∀ n ∈ post.map Prod.fst ++ [s], StoodIn id pr info s n) ∧
      ∀ x ∈ post, x.2.challenged ≠ some id

theorem AgreesAt.quorate (h : AgreesAt s id) (hpr : s.proposals.get id = some pr)
    (hst : pr.status = .approved b) (hproj : s.projects.get pr.projectId = some info) :
    Quorate pr.projectId info id s := by
  have hiff := h pr info hpr hproj (by rw [hst]; rfl)
  exact (meetsQuorums_iff.mp (hiff.mp ⟨b, hst⟩)).1

theorem Step.approvedSince (h : Step s a s') (hf : FreshProposal s a) (hf' : FreshProject s a)
    (hs : ApprovedSince id tr s) : ApprovedSince id (tr ++ [(s, a)]) s' := by
  intro pr b hpr hst
  rcases h.approved hpr hst with ⟨hold, hnot⟩ | ⟨hcall, info, hproj, hdate, hagrees⟩
  · obtain ⟨info, pre, m, act, post, rfl, hcall, hdate, hstood, hquiet⟩ := hs pr b hold hst
    have hlast : StoodIn id pr info s s := hstood s (by simp)
    have hsome : (s.projects.get pr.projectId).isSome := by rw [hlast.project]; rfl
    have hle := h.roleStakeOf_le hf' hsome
    have hproj : s'.projects.get pr.projectId = some info :=
      (h.projects_get hf' hsome).trans hlast.project
    have hquorate : Quorate pr.projectId info id s' := by
      rcases h.tallyOf_or_agrees hf hold with hsame | hagrees
      · exact hlast.quorate.of_le hle hsame
      · exact hagrees.quorate hpr hst hproj
    refine ⟨info, pre, m, act, post ++ [(s, a)], by simp, hcall, hdate, ?_, ?_⟩
    · intro n hn
      rw [List.map_append, List.mem_append] at hn
      rcases hn with hn | hn
      · have hn' := hstood n hn
        exact { hn' with stake := fun r => Nat.le_trans (hle r) (hn'.stake r) }
      · obtain rfl := List.mem_singleton.mp hn
        exact ⟨hpr, hproj, hquorate, fun r => Nat.le_refl _⟩
    · intro x hx
      rcases List.mem_append.mp hx with hx | hx
      · exact hquiet x hx
      · obtain rfl := List.mem_singleton.mp hx
        exact hnot
  · have hproj' : s'.projects.get pr.projectId = some info :=
      (h.projects_get hf' (by rw [hproj]; rfl)).trans hproj
    refine ⟨info, tr, s, a, [], rfl, hcall, hdate, ?_, by simp⟩
    intro n hn
    obtain rfl := List.mem_singleton.mp hn
    exact ⟨hpr, hproj', hagrees.quorate hpr hst hproj', fun r => Nat.le_refl _⟩

theorem Reaches.approvedSince (h : Reaches tr s) (hf : Along FreshProposal tr)
    (hf' : Along FreshProject tr) (id : Nat) : ApprovedSince id tr s := by
  obtain ⟨s0, ⟨n, b, rfl, -⟩, hr⟩ := h
  refine hr.induct (I := ApprovedSince id) (hf.and hf') ?_ ?_
  · intro pr b hpr
    simp at hpr
  · intro tr m a t _ _ hst hfresh hm
    exact hst.approvedSince hfresh.1 hfresh.2 hm

-- ---------------------------------------------------------------------------
-- The delay
-- ---------------------------------------------------------------------------

structure Stands (id : Nat) (pr : Proposal T.AccountId) (info : ProjectInfo) (s : State T) :
    Prop where
  proposal : s.proposals.get id = some pr
  project : s.projects.get pr.projectId = some info
  met : meetsQuorums pr.projectId info id s = true

def State.statusOf (s : State T) (id : Nat) : Option ProposalStatus :=
  (s.proposals.get id).map (·.status)

/-- The next block enacts proposal `id`. -/
def Enacts (id : Nat) (s : State T) : Prop :=
  s.statusOf id ≠ some .enacted ∧ (nextBlock s).statusOf id = some .enacted

instance (id : Nat) (s : State T) : Decidable (Enacts id s) :=
  inferInstanceAs (Decidable (_ ∧ _))

/-- A call of the run approved proposal `id` for the block that follows `s`, a delay
ahead. It has stood so in every state since, also while the hook of that block was
working its slot off, and no counter-attestation against it was accepted. -/
def ServedDelay (tr : Trace T) (s : State T) (id : Nat) : Prop :=
  ∃ pr info pre m act post, pr.status = .approved (s.blockNumber + 1) ∧
    tr = pre ++ (m, act) :: post ∧ ApprovingCall id m act ∧
    saturatingAdd T.maxBlockNumber m.blockNumber info.policy.enactmentDelay = s.blockNumber + 1 ∧
    (∀ n ∈ post.map Prod.fst ++ [s], Stands id pr info n) ∧
    (∀ before rest, (s.pendingAt (s.blockNumber + 1)).val = before ++ id :: rest →
      Stands id pr info (hookState s before)) ∧
    ∀ x ∈ post, x.2.challenged ≠ some id

theorem StoodIn.stands (h : StoodIn id pr info s n)
    (hmet : meetsQuorums pr.projectId info id s = true) : Stands id pr info n := by
  refine ⟨h.proposal, h.project, meetsQuorums_iff.mpr ⟨h.quorate, fun rq hrq h0 => ?_⟩⟩
  have hle := h.stake rq.role
  rw [h0] at hle
  exact (meetsQuorums_iff.mp hmet).2 rq hrq (Nat.le_zero.mp hle)

theorem Stands.hookState (h : Stands id pr info s) (hid : id ∉ ids) :
    Stands id pr info (hookState s ids) := by
  have hfr := (hookState_frame s ids).1
  refine ⟨?_, ?_, ?_⟩
  · rcases hookState_proposal s ids id with hsame | ⟨hmem, -⟩
    · exact hsame.trans h.proposal
    · exact absurd hmem hid
  · rw [hfr.projects]
    exact h.project
  · rw [hfr.meetsQuorums]
    exact h.met

/-- In a run in which no id is used twice, what a block enacts has served its delay. -/
theorem enacts_servedDelay (h : Reaches tr s) (hf : Along FreshProposal tr)
    (hf' : Along FreshProject tr) (he : Enacts id s) : ServedDelay tr s id := by
  obtain ⟨hbefore, hafter⟩ := he
  have hagenda := h.agrees hf
  rcases nextBlock_proposal s id with hsame | ⟨hmem, pr', hpr', hset⟩
  · unfold statusOf at hbefore hafter
    rw [hsame] at hafter
    exact absurd hafter hbefore
  · obtain ⟨pr, hpr, hst⟩ := due_eq_some.mp ((hagenda.mem_iff _ id).mp hmem)
    obtain ⟨info, pre, m, act, post, htr, hcall, hdate, hstood, hquiet⟩ :=
      h.approvedSince hf hf' id pr _ hpr hst
    have hlast := hstood s (by simp)
    have hmet : meetsQuorums pr.projectId info id s = true := by
      cases hset with
      | enacted hpr1 _ hproj hmet =>
        rw [hpr] at hpr1
        cases hpr1
        rw [hlast.project] at hproj
        cases hproj
        exact hmet
      | revoked => simp [statusOf, hpr'] at hafter
    refine ⟨pr, info, pre, m, act, post, hst, htr, hcall, hdate,
      fun n hn => (hstood n hn).stands hmet, fun before rest hslot => ?_, hquiet⟩
    have hnodup : (before ++ id :: rest).Nodup := hslot ▸ hagenda.nodup (s.blockNumber + 1)
    refine (hlast.stands hmet).hookState fun hin => ?_
    exact (List.nodup_append.mp hnodup).2.2 id hin id (by simp) rfl

theorem enacts_servedDelay_slashed :
    let as := [Mock.genesis .buildService (Mock.percent 50) 10 0, Mock.propose 8 1,
      Mock.vote 8 0 true, Mock.propose 9 2, Mock.challenge 1 3] ++ List.replicate 9 .block
    Enacts 0 (Mock.after as) ∧ ServedDelay (Mock.trace as) (Mock.after as) 0 := by
  intro as
  have he : Enacts 0 (Mock.after as) := by decide +kernel
  exact ⟨he, enacts_servedDelay (Mock.reaches as) (by decide +kernel) (by decide +kernel) he⟩

-- ---------------------------------------------------------------------------
-- An id used twice
-- ---------------------------------------------------------------------------

namespace Mock

variable {s s' : State Test} {info : ProjectInfo} {id n : Nat}

def approved (b : Nat) (who : Nat) (s : State Test) : State Test :=
  approve (T := Test) u32Max b (only u32Max)
    (recordVote (T := Test) u32Max who developer true s)

theorem doVote_approved (h : TwoOfThree info s) (hpr : s.proposals.get u32Max = some pr)
    (hst : pr.status = .voting) (hb : s.blockNumber + 2 = b) (hle : b ≤ u64Max)
    (hslot : s.pendingAt b = .empty)
    (htally : (recordVote (T := Test) u32Max who developer true s).tallyOf u32Max .coreDeveloper =
      { ayes := 2000 }) :
    doVote (T := Test) u32Max 0 info who developer true s.blockNumber s =
      .ok (approved b who s) := by
  have hdate : saturatingAdd Test.maxBlockNumber s.blockNumber info.policy.enactmentDelay = b := by
    rw [h.delay]
    exact (saturatingAdd_eq (hb ▸ hle)).trans hb
  have hp : TwoOfThree info (recordVote (T := Test) u32Max who developer true s) :=
    h.congr rfl rfl rfl
  have hmet : meetsQuorums 0 info u32Max (recordVote (T := Test) u32Max who developer true s) =
      true := by
    rw [hp.meetsQuorums (congrArg RoleTally.ayes htally)]
    decide
  have hids : (s.pendingAt (saturatingAdd Test.maxBlockNumber s.blockNumber
      info.policy.enactmentDelay)).tryPush u32Max = some (only u32Max) := by
    rw [hdate, hslot]
    exact tryPush_empty u32Max
  have hv := doVote_of_met hpr hst hmet hids
  rw [hdate] at hv
  exact hv

theorem approved_get (hpr : s.proposals.get u32Max = some pr) :
    (approved b who s).proposals.get u32Max = some { pr with status := .approved b } := by
  have hget : (recordVote (T := Test) u32Max who developer true s).proposals.get u32Max =
      some pr := hpr
  exact (approve_get ..).trans (withStatus_self hget _)

theorem pendingAt_approved (s : State Test) (b c who : Nat) :
    (approved b who s).pendingAt c = if c = b then only u32Max else s.pendingAt c :=
  StorageMap.getD_insert ..

theorem Filing.tally_second (h : Filing u32Max info s) (bal : Test.currency.Ledger) :
    (recordVote (T := Test) u32Max (2 : Nat) developer true (Mock.filed info bal s)).tallyOf
      u32Max .coreDeveloper = { ayes := 2000 } := by
  have hprev : (Mock.filed info bal s).votes.get (u32Max, (2 : Nat)) = none :=
    (StorageMap.get_insert_ne _ _ (by simp)).trans (h.vote u32Max _ (Nat.le_refl _))
  refine (tallyOf_recordVote ..).trans ?_
  rw [hprev]
  show RoleTally.record _ _ _ _ (State.tallyOf _ _ .coreDeveloper) = _
  rw [h.tally_filed]
  decide

theorem Filing.approve (h : Filing u32Max info s) (bal : Test.currency.Ledger) :
    perform (Mock.vote 2 u32Max true) (Mock.filed info bal s) =
      some (approved 3 2 (Mock.filed info bal s)) := by
  have hp : TwoOfThree info (Mock.filed info bal s) := h.congr rfl rfl rfl
  have hget : (Mock.filed info bal s).proposals.get u32Max = some (release info s) :=
    h.next ▸ filed_get info bal s
  have hb : (Mock.filed info bal s).blockNumber + 2 = 3 := congrArg (· + 2) h.block
  have hv := doVote_approved hp hget rfl hb (by decide) (h.slot 3) (h.tally_second bal)
  exact congrArg Except.toOption
    ((vote_of (T := Test) hget rfl h.votingOpen hp.project hp.second _).trans hv)

/-- In block 2 the proposal with the last id is approved for block 3. -/
structure Exhausted (info : ProjectInfo) (s : State Test) : Prop extends TwoOfThree info s where
  next : s.nextProposalId = u32Max
  block : s.blockNumber = 2
  slot : s.pendingAt 3 = only u32Max
  free : s.pendingAt 4 = .empty
  tally : s.tallyOf u32Max .coreDeveloper = { ayes := 2000 }
  vote : s.votes.get (u32Max, (1 : Nat)) = some true
  funds : Solvent s.balances

theorem Filing.exhausted (h : Filing u32Max info s) :
    ∃ tr m, Verigov.exec [Mock.propose 8 1, Mock.vote 2 u32Max true, .block] s = some (tr, m) ∧
      Exhausted info m := by
  obtain ⟨bal, hfunds, hpropose⟩ := h.propose
  generalize hm : approved 3 2 (Mock.filed info bal s) = m
  have hblock : m.blockNumber = 1 := hm ▸ h.block
  have hslots : ∀ b, m.pendingAt b = if b = 3 then only u32Max else .empty := by
    intro b
    rw [← hm, pendingAt_approved]
    exact congrArg _ (h.slot b)
  have hslot : ∀ b, b ≠ 2 → (takeSlot m).pendingAt b = m.pendingAt b := by
    intro b hb
    refine (StorageMap.getD_remove ..).trans (if_neg ?_)
    rwa [hblock]
  have hnext : perform .block m = some (takeSlot m) := by
    refine (if_pos (by rw [hblock]; decide)).trans (congrArg some ?_)
    rw [nextBlock_eq, hblock, hslots]
    rfl
  have hexec : Verigov.exec [Mock.propose 8 1, Mock.vote 2 u32Max true, .block] s =
      some ([(s, Mock.propose 8 1), (Mock.filed info bal s, Mock.vote 2 u32Max true), (m, .block)],
        takeSlot m) := by
    simp [Verigov.exec, hpropose, h.approve bal, hm, hnext]
  refine ⟨_, _, hexec, ?_⟩
  exact {
    toTwoOfThree := hm ▸ h.congr rfl rfl rfl
    next := by
      subst hm
      show saturatingAdd u32Max s.nextProposalId 1 = u32Max
      rw [h.next]
      rfl
    block := congrArg (· + 1) hblock
    slot := (hslot 3 (by decide)).trans (hslots 3)
    free := (hslot 4 (by decide)).trans (hslots 4)
    tally := hm ▸ h.tally_second bal
    vote := by
      subst hm
      refine (StorageMap.get_insert_ne _ _ (by simp)).trans ?_
      rw [← h.next]
      exact StorageMap.get_insert_self ..
    funds := hm ▸ hfunds }

theorem refiled_get (hnext : s.nextProposalId = u32Max) (bal : Test.currency.Ledger) :
    (addProposal (T := Test) (release info s) bal s).proposals.get u32Max =
      some (release info s) := by
  rw [← hnext]
  exact addProposal_get_self

theorem tally_refiled (htally : s.tallyOf u32Max .coreDeveloper = { ayes := 2000 })
    (hvote : s.votes.get (u32Max, (1 : Nat)) = some true) (bal : Test.currency.Ledger) :
    (recordVote (T := Test) u32Max (1 : Nat) developer true
      (addProposal (T := Test) (release info s) bal s)).tallyOf u32Max .coreDeveloper =
        { ayes := 2000 } := by
  refine (tallyOf_recordVote ..).trans ?_
  show RoleTally.record _ (s.votes.get (u32Max, (1 : Nat))) _ _
    (s.tallyOf u32Max .coreDeveloper) = _
  rw [hvote, htally]
  decide

theorem Exhausted.propose (h : Exhausted info s) :
    ∃ t, perform (Mock.propose 8 1) s = some t ∧ t.blockNumber = 2 ∧
      t.statusOf u32Max = some (.approved 4) ∧ Enacts u32Max t := by
  obtain ⟨bal, -, hpropose⟩ := perform_propose h.toTwoOfThree h.funds
  rw [h.next] at hpropose
  generalize hm : addProposal (T := Test) (release info s) bal s = m at hpropose
  have hget : m.proposals.get u32Max = some (release info s) := hm ▸ refiled_get h.next bal
  have hp : TwoOfThree info m := hm ▸ h.congr rfl rfl rfl
  have hblock : m.blockNumber = 2 := hm ▸ h.block
  have htally : (recordVote (T := Test) u32Max (1 : Nat) developer true m).tallyOf u32Max
      .coreDeveloper = { ayes := 2000 } := hm ▸ tally_refiled h.tally h.vote bal
  have hv := doVote_approved hp hget rfl (congrArg (· + 2) hblock) (by decide)
    (hm ▸ h.free : m.pendingAt 4 = .empty) htally
  have hb : s.blockNumber = m.blockNumber := hm ▸ rfl
  rw [hb, hv] at hpropose
  refine ⟨approved 4 1 m, hpropose, hblock, ?_, ?_, ?_⟩
  · simp [statusOf, approved_get hget]
  · simp [statusOf, approved_get hget]
  · have hslot : (approved 4 1 m).pendingAt 3 = only u32Max :=
      (pendingAt_approved ..).trans (hm ▸ h.slot)
    have hp' : TwoOfThree info (takeSlot (approved 4 1 m)) := hp.congr rfl rfl rfl
    have hmet : meetsQuorums 0 info u32Max (takeSlot (approved 4 1 m)) = true :=
      (hp'.meetsQuorums (congrArg RoleTally.ayes htally)).trans (by decide)
    have hget' : (takeSlot (approved 4 1 m)).proposals.get u32Max =
        some { release info s with status := .approved 4 } := approved_get hget
    have hnow : (approved 4 1 m).blockNumber + 1 = 3 := congrArg (· + 1) hblock
    rw [nextBlock_eq, hnow, hslot]
    show (enact u32Max _ (takeSlot (approved 4 1 m))).statusOf u32Max = _
    have hproj : (takeSlot (approved 4 1 m)).projects.get (release info s).projectId = some info :=
      hp'.project
    have hmet' : meetsQuorums (release info s).projectId info u32Max (takeSlot (approved 4 1 m)) =
      true := hmet
    simp [enact, hget', hproj, hmet', logRelease, depositEvent, statusOf]

end Mock

/-- When the counter is exhausted the last id is used again: approved for block 3,
filed anew in block 2 and approved for block 4, the release is enacted in block 3. -/
theorem reused_id_not_servedDelay :
    ∃ tr s, exec ([Mock.genesis .coreDeveloper (Mock.percent 50) 2 0] ++
        List.replicate u32Max (Mock.propose 8 1) ++
        [Mock.propose 8 1, Mock.vote 2 u32Max true, .block] ++ [Mock.propose 8 1]) Mock.start =
          some (tr, s) ∧
      Reaches tr s ∧ Enacts u32Max s ∧ ¬ ServedDelay tr s u32Max := by
  obtain ⟨info, hgenesis⟩ := Mock.filing_genesis
  obtain ⟨tr1, s1, h1, hs1, -⟩ := hgenesis.run
  obtain ⟨tr2, s2, h2, hs2⟩ := hs1.exhausted
  obtain ⟨t, h3, hblock, hstatus, henacts⟩ := hs2.propose
  have h3' : exec [Mock.propose 8 1] s2 = some ([(s2, Mock.propose 8 1)], t) := by
    simp [exec, h3]
  have hexec := exec_append (exec_append (exec_append (Mock.exec_after _) h1) h2) h3'
  refine ⟨_, t, hexec, ⟨_, Mock.init_start, exec_run hexec⟩, henacts, ?_⟩
  rintro ⟨pr, _, _, _, _, _, hst, -, -, -, hstands, -⟩
  have hpr := (hstands t (by simp)).proposal
  simp [statusOf, hpr, hst, hblock] at hstatus

end Verigov
