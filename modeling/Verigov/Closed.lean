import Verigov.Registry
import Verigov.ReleaseLog
import Verigov.Schedule

/-!
# Closed proposals

A proposal moves along the edges of `Edge` only, and the three statuses without
an edge out are final: nothing that belongs to a closed proposal changes again.
A counter-attestation closes a proposal as rejected. It is recorded with the
hashes it is about, and from then on the proposal is in no slot and in no log
entry.
-/

namespace Verigov

open State Transition Agenda

variable {T : Config} {s s' t : State T} {id : Nat}

-- ---------------------------------------------------------------------------
-- The graph
-- ---------------------------------------------------------------------------

/-- The changes of status, with the blocks at which a vote can still decide a proposal
and at which it can be closed undecided. -/
inductive Edge (now votingEnds : Nat) : ProposalStatus → ProposalStatus → Prop
  | approve (h : now ≤ votingEnds) : Edge now votingEnds .voting (.approved enactAt)
  | revoke : Edge now votingEnds (.approved enactAt) .voting
  | rejectVoting : Edge now votingEnds .voting .rejected
  | rejectApproved : Edge now votingEnds (.approved enactAt) .rejected
  | expire (h : votingEnds < now) : Edge now votingEnds .voting .expired
  | enact : Edge now votingEnds (.approved enactAt) .enacted

theorem Moves.edge {pr : Proposal T.AccountId} (h : Moves act now id pr status) :
    status = pr.status ∨ Edge now pr.votingEnds pr.status status := by
  cases h with
  | stay => exact .inl rfl
  | approve _ hst hn => exact .inr (hst ▸ .approve hn)
  | revoke hst => exact .inr (hst ▸ .revoke)
  | expire _ hst hn => exact .inr (hst ▸ .expire hn)
  | enact _ hst => exact .inr (hst ▸ .enact)
  | reject _ ho =>
    cases hst : pr.status with
    | voting => exact .inr .rejectVoting
    | approved e => exact .inr .rejectApproved
    | _ => simp [hst, ProposalStatus.isOpen] at ho

-- ---------------------------------------------------------------------------
-- Counter-attestations
-- ---------------------------------------------------------------------------

/-- The action is a `submit_counter_attestation` on proposal `id` whose checks passed
in `s`, with what it recorded in `s'`. -/
inductive Challenged (s : State T) (id : Nat) (s' : State T) : Action T → Prop
  | mk (proposal : s.proposals.get id = some pr)
      (stakeholder : (s.stakeholders.get (pr.projectId, who)).isSome)
      (other : who ≠ pr.attestation.builder)
      (differs : rebuilt ≠ pr.attestation.outputBinaryHash)
      (isOpen : pr.status.isOpen = true)
      (rejected : s'.proposals = s.proposals.insert id { pr with status := .rejected })
      (recorded : s'.counterAttestations =
        s.counterAttestations.insert id ⟨who, pr.attestation.outputBinaryHash, rebuilt⟩) :
      Challenged s id s' (.call (.signed who) (.submitCounterAttestation id rebuilt))

theorem submitCounterAttestation_challenged
    (h : submitCounterAttestation origin id rebuilt s = .ok s') :
    Challenged s id s' (.call origin (.submitCounterAttestation id rebuilt)) := by
  obtain ⟨who, pr, info, y, slashed, burned, released, balances, rfl, hpr, -, hwho, hself, hdiff,
    hopen, -, -, -, rfl⟩ := submitCounterAttestation_ok h
  refine .mk hpr hwho hself hdiff hopen ?_ ?_ <;> cases pr.status <;> rfl

theorem Step.challenge (h : Step s act s') :
    (act.challenged = none ∧ s'.counterAttestations = s.counterAttestations) ∨
      ∃ id, Challenged s id s' act := by
  cases h with
  | block => exact .inl ⟨rfl, (nextBlock_frame s).1.counterAttestations⟩
  | failed => exact .inl ⟨rfl, rfl⟩
  | other => exact .inl ⟨rfl, rfl⟩
  | call origin c h =>
    cases c with
    | projectGenesis name xs policy slashing bond =>
      obtain ⟨s1, -, -, hs1, -, rfl⟩ := projectGenesis_ok h
      exact .inl ⟨rfl, (registerAll_frame hs1).counterAttestations⟩
    | newRelease p version att cid sig =>
      exact .inl ⟨rfl, (newRelease_frame h).counterAttestations⟩
    | vote id aye =>
      exact .inl ⟨rfl, (vote_frame h).counterAttestations⟩
    | submitCounterAttestation id rebuilt =>
      exact .inr ⟨id, submitCounterAttestation_challenged h⟩
    | closeExpired id =>
      obtain ⟨who, pr, released, balances, -, -, -, -, -, rfl⟩ := closeExpired_ok h
      exact .inl ⟨rfl, rfl⟩

-- ---------------------------------------------------------------------------
-- What is closed stays
-- ---------------------------------------------------------------------------

/-- All that belongs to proposal `id` is in `s'` as it is in `s`. -/
structure SameProposal (id : Nat) (s s' : State T) : Prop where
  proposal : s'.proposals.get id = s.proposals.get id
  vote : ∀ a, s'.votes.get (id, a) = s.votes.get (id, a)
  tally : ∀ r, s'.tallyOf id r = s.tallyOf id r
  counterAttestation : s'.counterAttestations.get id = s.counterAttestations.get id

theorem SameProposal.trans (h : SameProposal id s s') (h' : SameProposal id s' t) :
    SameProposal id s t where
  proposal := h'.proposal.trans h.proposal
  vote a := (h'.vote a).trans (h.vote a)
  tally r := (h'.tally r).trans (h.tally r)
  counterAttestation := h'.counterAttestation.trans h.counterAttestation

theorem Step.sameProposal (h : Step s act s') (hf : FreshProposal s act)
    (hpr : s.proposals.get id = some pr) (hc : pr.status.isOpen = false) :
    SameProposal id s s' := by
  have hsame : s'.proposals.get id = s.proposals.get id := by
    obtain ⟨status, hget, hm⟩ := h.kept hf hpr
    rw [hget, hm.closed hc, hpr]
  have hballot := h.ballotOn id
  rcases hballot with ⟨c, -, hdone, rfl⟩ | ⟨-, hvotes, htallies⟩
  · obtain ⟨pr', hpr', -, ho⟩ := hdone.proposal
    rw [hsame, hpr] at hpr'
    cases hpr'
    rw [hc] at ho
    cases ho
  · refine ⟨hsame, hvotes, htallies, ?_⟩
    rcases h.challenge with ⟨-, hca⟩ | ⟨id', hch⟩
    · rw [hca]
    · obtain ⟨hpr', -, -, -, ho, -, hca⟩ := hch
      rw [hca, StorageMap.get_insert_ne]
      rintro rfl
      rw [hpr] at hpr'
      cases hpr'
      rw [hc] at ho
      cases ho

theorem Run.sameProposal (h : Run Step s tr t) (hf : Along FreshProposal tr)
    (hpr : s.proposals.get id = some pr) (hc : pr.status.isOpen = false) :
    SameProposal id s t := by
  refine h.invariant (I := SameProposal id s) hf ⟨rfl, fun _ => rfl, fun _ => rfl, rfl⟩ ?_
  intro m act t hst hfresh hm
  exact hm.trans (hst.sameProposal hfresh (hm.proposal.trans hpr) hc)

/-- The life cycle: a step keeps a proposal, its status apart, and moves the status
along an edge; once closed, the proposal and all that belongs to it stay as they are. -/
theorem proposal_lifecycle (h : Reachable s) :
    (∀ act s' id pr, Step s act s' → ProposalIdsBelowMax s' → s.proposals.get id = some pr →
      ∃ status, s'.proposals.get id = some { pr with status } ∧
        (status = pr.status ∨ Edge s.blockNumber pr.votingEnds pr.status status)) ∧
    ∀ tr t id pr, Run Step s tr t → ProposalIdsBelowMax t → s.proposals.get id = some pr →
      pr.status = .enacted ∨ pr.status = .rejected ∨ pr.status = .expired →
      SameProposal id s t := by
  obtain ⟨tr0, h0⟩ := h
  refine ⟨fun act s' id pr hst hids hpr => ?_, fun tr t id pr hr hids hpr hclosed => ?_⟩
  · have hfresh := h0.freshAlong (.single hst) hids
    simp only [along_cons, along_nil, and_true] at hfresh
    obtain ⟨status, hget, hm⟩ := hst.kept hfresh hpr
    exact ⟨status, hget, hm.edge⟩
  · refine Run.sameProposal hr (h0.freshAlong hr hids) hpr ?_
    rcases hclosed with hst | hst | hst <;> rw [hst] <;> rfl

theorem proposal_lifecycle_rejected :
    let as := [Mock.genesis .coreDeveloper (Mock.percent 30) 10 2, Mock.propose 8 1,
      Mock.challenge 0 2]
    ∀ tr t, Run Step (Mock.after as) tr t → ProposalIdsBelowMax t →
      SameProposal 0 (Mock.after as) t := by
  intro as tr t hr hids
  obtain ⟨pr, hpr, hst⟩ : ∃ pr, (Mock.after as).proposals.get 0 = some pr ∧ pr.status = .rejected :=
    ⟨((Mock.after as).proposals.get 0).get (by decide +kernel), by simp, by decide +kernel⟩
  exact (proposal_lifecycle ⟨_, Mock.reaches as⟩).2 tr t 0 pr hr hids hpr (.inr (.inl hst))

-- ---------------------------------------------------------------------------
-- What is challenged is not released
-- ---------------------------------------------------------------------------

structure CounterAttestation.Against (ca : CounterAttestation T.AccountId) (s : State T)
    (pr : Proposal T.AccountId) : Prop where
  rejected : pr.status = .rejected
  attested : ca.attestedBinaryHash = pr.attestation.outputBinaryHash
  rebuilt : ca.rebuiltBinaryHash ≠ pr.attestation.outputBinaryHash
  challenger : (s.stakeholders.get (pr.projectId, ca.challenger)).isSome
  other : ca.challenger ≠ pr.attestation.builder

structure ChallengesRecorded (s : State T) : Prop where
  against : ∀ id ca, s.counterAttestations.get id = some ca →
    ∃ pr, s.proposals.get id = some pr ∧ ca.Against s pr
  recorded : ∀ id pr, s.proposals.get id = some pr → pr.status = .rejected →
    (s.counterAttestations.get id).isSome

theorem Step.stakeholder_isSome (h : Step s act s') (hk : (s.stakeholders.get k).isSome) :
    (s'.stakeholders.get k).isSome := by
  obtain ⟨x, hx⟩ := Option.isSome_iff_exists.mp hk
  obtain ⟨x', hx', -, -⟩ := h.stakeholder hx
  simp [hx']

theorem CounterAttestation.Against.step {ca : CounterAttestation T.AccountId}
    (h : ca.Against s pr) (hst : Step s act s') : ca.Against s' pr :=
  { h with challenger := hst.stakeholder_isSome h.challenger }

theorem Step.challengesRecorded (h : Step s act s') (hf : FreshProposal s act)
    (hs : ChallengesRecorded s) : ChallengesRecorded s' := by
  rcases h.challenge with ⟨hnone, hca⟩ | ⟨id0, hch⟩
  · refine ⟨fun id ca hget => ?_, fun id pr hpr hst => ?_⟩
    · rw [hca] at hget
      obtain ⟨pr, hpr, hag⟩ := hs.against id ca hget
      obtain ⟨status, hpr', hm⟩ := h.kept hf hpr
      have hclosed : pr.status.isOpen = false := by rw [hag.rejected]; rfl
      rw [hm.closed hclosed] at hpr'
      exact ⟨pr, hpr', hag.step h⟩
    · rw [hca]
      exact hs.recorded id pr (h.rejected hnone hpr hst) hst
  · cases hch with
    | mk hpr0 hwho hself hdiff hopen hput hca =>
      refine ⟨fun id ca hget => ?_, fun id pr hpr hst => ?_⟩
      · rw [hca, StorageMap.get_insert] at hget
        rw [hput, StorageMap.get_insert]
        split at hget
        · rename_i hid
          cases hget
          refine ⟨_, if_pos hid, rfl, rfl, hdiff, ?_, hself⟩
          exact h.stakeholder_isSome hwho
        · rename_i hid
          obtain ⟨pr, hpr, hag⟩ := hs.against id ca hget
          exact ⟨pr, (if_neg hid).trans hpr, hag.step h⟩
      · rw [hput, StorageMap.get_insert] at hpr
        rw [hca, StorageMap.get_insert]
        split at hpr
        · rename_i hid
          simp [hid]
        · rename_i hid
          rw [if_neg hid]
          exact hs.recorded id pr hpr hst

theorem Reaches.challengesRecorded (h : Reaches tr s) (hf : Along FreshProposal tr) :
    ChallengesRecorded s := by
  obtain ⟨s0, ⟨n, b, rfl, -⟩, hr⟩ := h
  refine hr.invariant hf ⟨?_, ?_⟩ fun m act t hst hfresh hm => hst.challengesRecorded hfresh hm
  · simp
  · simp

theorem Reaches.withdrawn (h : Reaches tr s) (hf : Along FreshProposal tr)
    (hpr : s.proposals.get id = some pr) (hst : pr.status = .rejected) :
    (∀ b, id ∉ (s.pendingAt b).val) ∧ ∀ k e, s.releaseLog.get k = some e → e.proposalId ≠ id := by
  refine ⟨fun b hmem => ?_, fun k e he hid => ?_⟩
  · have hdue := ((h.agrees hf).mem_iff b id).mp hmem
    rw [due_of_get hpr, hst] at hdue
    cases hdue
  · obtain ⟨pr', hpr', hrec⟩ := (h.logSound hf).entry k.1 k.2 e he
    rw [hid, hpr] at hpr'
    cases hpr'
    have henacted := hrec.enacted
    rw [hst] at henacted
    cases henacted

/-- A proposal has a counter-attestation iff it is rejected. Then it is recorded what
was attested and what was rebuilt, by a stakeholder that is not the builder, and the
proposal is not released, then and ever after. -/
theorem challenged_never_released (h : Reachable s) (hids : ProposalIdsBelowMax s) (id : Nat) :
    ((s.counterAttestations.get id).isSome ↔
      ∃ pr, s.proposals.get id = some pr ∧ pr.status = .rejected) ∧
    ∀ ca, s.counterAttestations.get id = some ca →
      ∃ pr, s.proposals.get id = some pr ∧ ca.Against s pr ∧
        ∀ tr t, Run Step s tr t → ProposalIdsBelowMax t →
          t.counterAttestations.get id = some ca ∧ t.proposals.get id = some pr ∧
          (∀ b, id ∉ (t.pendingAt b).val) ∧
          ∀ k e, t.releaseLog.get k = some e → e.proposalId ≠ id := by
  obtain ⟨tr0, h0⟩ := h
  have hrec := h0.challengesRecorded (h0.freshProposal hids).1
  refine ⟨⟨fun hsome => ?_, fun ⟨pr, hpr, hst⟩ => hrec.recorded id pr hpr hst⟩, fun ca hca => ?_⟩
  · obtain ⟨ca, hca⟩ := Option.isSome_iff_exists.mp hsome
    obtain ⟨pr, hpr, hag⟩ := hrec.against id ca hca
    exact ⟨pr, hpr, hag.rejected⟩
  · obtain ⟨pr, hpr, hag⟩ := hrec.against id ca hca
    refine ⟨pr, hpr, hag, fun tr t hr hids' => ?_⟩
    have hclosed : pr.status.isOpen = false := by rw [hag.rejected]; rfl
    have hsame := Run.sameProposal hr (h0.freshAlong hr hids') hpr hclosed
    have ht := hsame.proposal.trans hpr
    have hreach := h0.append hr
    exact ⟨hsame.counterAttestation.trans hca, ht,
      hreach.withdrawn (hreach.freshProposal hids').1 ht hag.rejected⟩

theorem challenged_never_released_approved :
    let s := Mock.after [Mock.genesis .coreDeveloper (Mock.percent 30) 5 2, Mock.propose 8 1,
      .block, Mock.challenge 0 2]
    ∃ ca, s.counterAttestations.get 0 = some ca ∧ ca.challenger = 6 ∧
      ∀ tr t, Run Step s tr t → ProposalIdsBelowMax t →
        ∀ k e, t.releaseLog.get k = some e → e.proposalId ≠ 0 := by
  intro s
  obtain ⟨ca, hca, hwho⟩ : ∃ ca, s.counterAttestations.get 0 = some ca ∧ ca.challenger = 6 :=
    ⟨(s.counterAttestations.get 0).get (by decide +kernel), by simp, by decide +kernel⟩
  have h := challenged_never_released (s := s) ⟨_, Mock.reaches _⟩ (by decide +kernel) 0
  obtain ⟨pr, -, -, hafter⟩ := h.2 ca hca
  exact ⟨ca, hca, hwho, fun tr t hr hids => (hafter tr t hr hids).2.2.2⟩

end Verigov
