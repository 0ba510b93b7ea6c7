import Verigov.Progress
import Verigov.Registry

/-!
# Votes on an approved proposal

Approval does not end the voting. A vote on an approved proposal can only fail at
the end of the voting period, and a vote that is taken stands in the tally that
`enact` finds, with the votes that come after it. The voting period and the
enactment delay are independent: where the date of the enactment lies beyond the
end of the voting period, the votes in between are refused.
-/

namespace Verigov

open State Transition Agenda

variable {T : Config} {s s' : State T} {id : Nat}

def recordCast (id : Nat) (r : Role) (t : RoleTally) (x : State T × Action T) : RoleTally :=
  match castOf x.1 x.2 with
  | some c =>
    if c.proposalId = id ∧ c.voter.role = r then
      t.record T.maxBalance (x.1.votes.get (id, c.who)) c.voter.stake c.aye
    else t
  | none => t

def laterTally (id : Nat) (r : Role) (tr : Trace T) (t : RoleTally) : RoleTally :=
  tr.foldl (recordCast id r) t

theorem Step.tallyOf (h : Step s a s') (id : Nat) (r : Role) :
    s'.tallyOf id r = recordCast id r (s.tallyOf id r) (s, a) := by
  rcases h.ballotOn id with ⟨c, hc, hdone, rfl⟩ | ⟨hother, -, htally⟩
  · rw [hdone.tallyOf]
    by_cases hr : r = c.voter.role
    · subst hr
      simp [recordCast, hc, Cast.tally]
    · simp [recordCast, hc, hr, Ne.symm hr]
  · rw [htally]
    cases hc : castOf s a with
    | none => simp [recordCast, hc]
    | some c => simp [recordCast, hc, hother c hc]

theorem run_tallyOf (h : Run Step s tr s') (id : Nat) (r : Role) :
    s'.tallyOf id r = laterTally id r tr (s.tallyOf id r) := by
  induction h with
  | nil => rfl
  | snoc _ hst ih => simp [hst.tallyOf id r, ih, laterTally]

/-- The vote of `who` is in the tally that `enact` evaluates at `enactAt`: it is
recorded with the voter's stake, and if the proposal is still approved when that block
begins, the hook enacts it and finds, whatever it has enacted before, the recorded
tally with the votes that were cast since. -/
structure Reflected (id : Nat) (who : T.AccountId) (voter : Stakeholder) (aye : Bool)
    (enactAt : Nat) (s s' : State T) : Prop where
  vote : s'.votes.get (id, who) = some aye
  tally : s'.tallyOf id voter.role =
    (s.tallyOf id voter.role).record T.maxBalance (s.votes.get (id, who)) voter.stake aye
  evaluated : ∀ tr u pr, Run Step s' tr u → u.blockNumber + 1 = enactAt →
    u.proposals.get id = some pr → pr.status = .approved enactAt →
    id ∈ (u.pendingAt enactAt).val ∧
      ∀ ids r, (hookState u ids).tallyOf id r = laterTally id r tr (s'.tallyOf id r)

theorem vote_reflected (h : Reaches tr s) (hpr : s.proposals.get id = some pr)
    (hvoter : s.stakeholders.get (pr.projectId, who) = some voter)
    (hv : vote (.signed who) id aye s = .ok s') (enactAt : Nat) :
    Reflected id who voter aye enactAt s s' := by
  have hdone := vote_done hpr hvoter hv
  refine ⟨?_, ?_, fun tr' u pr' hrun _ hu hst => ⟨?_, fun ids r => ?_⟩⟩
  · rw [hdone.votes, StorageMap.get_insert_self]
  · exact (hdone.tallyOf voter.role).trans (if_pos rfl)
  · have hreach : Reaches _ u := (h.append (.single (.call _ (.vote id aye) hv))).append hrun
    exact hreach.covers id enactAt (due_eq_some.mpr ⟨pr', hu, hst⟩)
  · have htally : (hookState u ids).tallyOf id r = u.tallyOf id r := by
      unfold State.tallyOf
      rw [(hookState_frame u ids).1.tallies]
    rw [htally, run_tallyOf hrun]

/-- On an approved proposal, the votes of all stakeholders for either side succeed and
stand in the tally that `enact` evaluates iff the voting period has not ended. -/
theorem approved_votes_count_iff (h : Reaches tr s) (hpr : s.proposals.get id = some pr)
    (hst : pr.status = .approved enactAt) :
    (∀ who voter aye, s.stakeholders.get (pr.projectId, who) = some voter →
      ∃ s', vote (.signed who) id aye s = .ok s' ∧ Reflected id who voter aye enactAt s s') ↔
    s.blockNumber ≤ pr.votingEnds := by
  constructor
  · intro hall
    -- The proposer is a stakeholder, so there is someone whose vote succeeds.
    obtain ⟨x, hx, -⟩ := (h.partiesRegistered id pr hpr).1
    obtain ⟨s', hv, -⟩ := hall pr.proposer x true hx
    obtain ⟨_, pr', _, _, -, hpr', -, hends, -⟩ := vote_ok hv
    rw [hpr] at hpr'
    cases hpr'
    exact hends
  · intro hends who voter aye hvoter
    obtain ⟨info, hproj⟩ := Option.isSome_iff_exists.mp (h.hasProject id pr hpr)
    have hopen : pr.status.isOpen = true := by rw [hst]; rfl
    obtain ⟨s', hs'⟩ := doVote_of_approved hpr hst pr.projectId info who voter aye s.blockNumber
    have hv := (vote_of hpr hopen hends hproj hvoter aye).trans hs'
    exact ⟨s', hv, vote_reflected h hpr hvoter hv enactAt⟩

theorem approved_votes_count_iff_nay :
    let s := Mock.after [Mock.genesis .coreDeveloper (Mock.percent 60) 12 0, Mock.propose 8 1,
      Mock.vote 2 0 true, .block]
    s.blockNumber = 2 ∧ (∃ pr, s.proposals.get 0 = some pr ∧ pr.status = .approved 13) ∧
      ∃ s', vote (.signed (3 : Nat)) 0 false s = .ok s' ∧
        s'.tallyOf 0 .coreDeveloper = ⟨2000, 1000⟩ := by
  intro s
  obtain ⟨pr, hpr, hfields⟩ := Option.map_eq_some_iff.mp (show (s.proposals.get 0).map
    (fun pr => (pr.projectId, pr.status, pr.votingEnds)) = some (0, .approved 13, 101) by
      decide +kernel)
  simp only [Prod.mk.injEq] at hfields
  obtain ⟨hp, hst, hends⟩ := hfields
  have hnow : s.blockNumber = 2 := by decide +kernel
  have hvoter : s.stakeholders.get (pr.projectId, (3 : Nat)) = some ⟨.coreDeveloper, 1000⟩ := by
    rw [hp]
    decide +kernel
  have h := (approved_votes_count_iff (s := s) (Mock.reaches _) hpr hst).mpr (by omega)
  obtain ⟨s', hv, href⟩ := h (3 : Nat) _ false hvoter
  refine ⟨hnow, ⟨pr, hpr, hst⟩, s', hv, href.tally.trans ?_⟩
  decide +kernel

/-- The voting period of 100 blocks is over, the enactment is 99 blocks away: the third
developer cannot vote. -/
theorem vote_refused_before_enactment :
    let s := Mock.after ([Mock.genesis .coreDeveloper (Mock.percent 60) 200 0, Mock.propose 8 1,
      Mock.vote 2 0 true] ++ List.replicate 101 .block)
    Reachable s ∧ s.blockNumber = 102 ∧
      (∃ pr, s.proposals.get 0 = some pr ∧ pr.projectId = 0 ∧ pr.status = .approved 201) ∧
      (s.stakeholders.get (0, (3 : Nat))).isSome ∧
      ∀ aye, vote (.signed (3 : Nat)) 0 aye s = .error (.pallet .votingPeriodOver) := by
  intro s
  obtain ⟨pr, hpr, hfields⟩ := Option.map_eq_some_iff.mp (show (s.proposals.get 0).map
    (fun pr => (pr.projectId, pr.status, pr.votingEnds)) = some (0, .approved 201, 101) by
      decide +kernel)
  simp only [Prod.mk.injEq] at hfields
  obtain ⟨hp, hst, hends⟩ := hfields
  have hnow : s.blockNumber = 102 := by decide +kernel
  refine ⟨⟨_, Mock.reaches _⟩, hnow, ⟨pr, hpr, hp, hst⟩, by decide +kernel, fun aye => ?_⟩
  simp [vote, ensureSigned, okOr, ensure, hpr, hst, ProposalStatus.isOpen, hends, hnow, bind,
    Except.bind, pure, Except.pure, throw, throwThe, MonadExceptOf.throw]

end Verigov
