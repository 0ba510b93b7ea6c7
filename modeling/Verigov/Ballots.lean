import Verigov.Lifecycle

/-!
# Casting a vote

Votes and tallies change in one way only: an account votes on a proposal of
its project, by `vote` or by filing the proposal. `castOf` reads off from the
action who votes on what and with which stake; `Step.ballot` says what that
does to the storage, and that nothing else touches it.
-/

namespace Verigov

open State

variable {T : Config} {s s' : State T} {id : Nat}

structure Cast (T : Config) where
  proposalId : Nat
  projectId : Nat
  who : T.AccountId
  aye : Bool
  voter : Stakeholder

/-- The vote a successful action casts, with the voter as registered in `s`. -/
def castOf (s : State T) : Action T → Option (Cast T)
  | .call (.signed who) (.vote proposalId aye) => do
    let pr ← s.proposals.get proposalId
    let voter ← s.stakeholders.get (pr.projectId, who)
    pure { proposalId, projectId := pr.projectId, who, aye, voter }
  | .call (.signed who) (.newRelease projectId ..) => do
    let voter ← s.stakeholders.get (projectId, who)
    pure { proposalId := s.nextProposalId, projectId, who, aye := true, voter }
  | _ => none

def Cast.tally (c : Cast T) (s : State T) : RoleTally :=
  (s.tallyOf c.proposalId c.voter.role).record T.maxBalance (s.votes.get (c.proposalId, c.who))
    c.voter.stake c.aye

structure Cast.Done (c : Cast T) (s s' : State T) : Prop where
  voter : s.stakeholders.get (c.projectId, c.who) = some c.voter
  proposal : ∃ pr, s'.proposals.get c.proposalId = some pr ∧ pr.projectId = c.projectId ∧
    pr.status.isOpen = true
  project : (s.projects.get c.projectId).isSome
  votes : s'.votes = s.votes.insert (c.proposalId, c.who) c.aye
  tallies : s'.tallies = s.tallies.insert (c.proposalId, c.voter.role) (c.tally s)
  stakeholders : s'.stakeholders = s.stakeholders
  roleStake : s'.roleStake = s.roleStake

theorem castOf_eq_some (h : castOf s a = some c) :
    s.stakeholders.get (c.projectId, c.who) = some c.voter ∧
      ((∃ pr, s.proposals.get c.proposalId = some pr ∧ pr.projectId = c.projectId) ∨
        a.isNewRelease = true ∧ c.proposalId = s.nextProposalId) := by
  unfold castOf at h
  split at h
  · simp only [Option.bind_eq_bind, Option.bind_eq_some_iff, Option.pure_def,
      Option.some.injEq] at h
    obtain ⟨pr, hpr, voter, hvoter, rfl⟩ := h
    exact ⟨hvoter, .inl ⟨pr, hpr, rfl⟩⟩
  · simp only [Option.bind_eq_bind, Option.bind_eq_some_iff, Option.pure_def,
      Option.some.injEq] at h
    obtain ⟨voter, hvoter, rfl⟩ := h
    exact ⟨hvoter, .inr ⟨rfl, rfl⟩⟩
  · cases h

theorem Cast.Done.votes_other {c : Cast T} (h : c.Done s s') (ha : a ≠ c.who) :
    s'.votes.get (c.proposalId, a) = s.votes.get (c.proposalId, a) := by
  rw [h.votes, StorageMap.get_insert_ne]
  simpa using ha

theorem Cast.Done.tallyOf {c : Cast T} (h : c.Done s s') (r : Role) :
    s'.tallyOf c.proposalId r =
      if r = c.voter.role then c.tally s else s.tallyOf c.proposalId r := by
  unfold State.tallyOf
  rw [h.tallies, StorageMap.getD_insert]
  simp

theorem doVote_isOpen (h : doVote id p project who voter aye now s = .ok s')
    (hpr : s.proposals.get id = some pr) (ho : pr.status.isOpen = true) :
    ∃ pr', s'.proposals.get id = some pr' ∧ pr'.projectId = pr.projectId ∧
      pr'.status.isOpen = true := by
  have hget : (recordVote id who voter aye s).proposals.get id = some pr := hpr
  obtain ⟨_, -, ⟨-, -, ids, -, rfl⟩ | ⟨enactAt, -, -, rfl⟩ | ⟨rfl, -⟩⟩ := doVote_ok h
  · exact ⟨_, (approve_get ..).trans (withStatus_self hget _), rfl, rfl⟩
  · exact ⟨_, (revokeApproval_get ..).trans (withStatus_self hget _), rfl, rfl⟩
  · exact ⟨pr, hget, rfl, ho⟩

theorem Step.ballot (h : Step s a s') :
    (castOf s a = none ∧ s'.votes = s.votes ∧ s'.tallies = s.tallies) ∨
      ∃ c, castOf s a = some c ∧ c.Done s s' := by
  cases h with
  | block => exact .inl ⟨rfl, (nextBlock_frame s).1.votes, (nextBlock_frame s).1.tallies⟩
  | failed => exact .inl ⟨rfl, rfl, rfl⟩
  | other => exact .inl ⟨rfl, rfl, rfl⟩
  | call origin call h =>
    cases call with
    | projectGenesis name xs policy slashing bond =>
      obtain ⟨s1, rfl, -, hs1, -, rfl⟩ := projectGenesis_ok h
      exact .inl ⟨rfl, (registerAll_frame hs1).votes, (registerAll_frame hs1).tallies⟩
    | newRelease p version att cid sig =>
      obtain ⟨who, info, x, y, balances, rfl, hproj, hx, hxr, hy, hyr, hsig, hhold, hv⟩ :=
        newRelease_ok h
      refine .inr ⟨⟨s.nextProposalId, p, who, true, x⟩, by simp [castOf, hx], ?_⟩
      exact ⟨hx, doVote_isOpen hv addProposal_get_self rfl, by simp [hproj], (doVote_votes hv).1,
        (doVote_votes hv).2, (doVote_frame hv).stakeholders, (doVote_frame hv).roleStake⟩
    | vote id aye =>
      obtain ⟨who, pr, project, x, rfl, hpr, ho, hends, hproj, hx, hv⟩ := vote_ok h
      refine .inr ⟨⟨id, pr.projectId, who, aye, x⟩, by simp [castOf, hpr, hx], ?_⟩
      exact ⟨hx, doVote_isOpen hv hpr ho, by simp [hproj], (doVote_votes hv).1,
        (doVote_votes hv).2, (doVote_frame hv).stakeholders, (doVote_frame hv).roleStake⟩
    | submitCounterAttestation id rebuilt =>
      have hf := submitCounterAttestation_frame h
      exact .inl ⟨by cases origin <;> rfl, hf.votes, hf.tallies⟩
    | closeExpired id =>
      have hf := closeExpired_frame h
      exact .inl ⟨by cases origin <;> rfl, hf.votes, hf.tallies⟩

theorem castOf_vote (hpr : s.proposals.get id = some pr)
    (hvoter : s.stakeholders.get (pr.projectId, who) = some voter) (aye : Bool) :
    castOf s (.call (.signed who) (.vote id aye)) = some ⟨id, pr.projectId, who, aye, voter⟩ := by
  simp [castOf, hpr, hvoter]

theorem vote_done (hpr : s.proposals.get id = some pr)
    (hvoter : s.stakeholders.get (pr.projectId, who) = some voter)
    (h : vote (.signed who) id aye s = .ok s') :
    Cast.Done ⟨id, pr.projectId, who, aye, voter⟩ s s' := by
  have hst : Step s (.call (.signed who) (.vote id aye)) s' := .call _ _ h
  rcases hst.ballot with ⟨hnone, -⟩ | ⟨c, hc, hdone⟩
  · rw [castOf_vote hpr hvoter] at hnone
    cases hnone
  · rw [castOf_vote hpr hvoter] at hc
    cases hc
    exact hdone

/-- For one proposal: a step casts a vote on it, or leaves its votes and tallies. -/
theorem Step.ballotOn (h : Step s a s') (id : Nat) :
    (∃ c, castOf s a = some c ∧ c.Done s s' ∧ c.proposalId = id) ∨
      ((∀ c, castOf s a = some c → c.proposalId ≠ id) ∧
        (∀ who, s'.votes.get (id, who) = s.votes.get (id, who)) ∧
        ∀ r, s'.tallyOf id r = s.tallyOf id r) := by
  rcases h.ballot with ⟨hnone, hvotes, htallies⟩ | ⟨c, hc, hd⟩
  · refine .inr ⟨by simp [hnone], fun who => by rw [hvotes], fun r => ?_⟩
    unfold tallyOf
    rw [htallies]
  · by_cases hid : c.proposalId = id
    · exact .inl ⟨c, hc, hd, hid⟩
    · refine .inr ⟨?_, fun who => ?_, fun r => ?_⟩
      · intro c' hc'
        rw [hc] at hc'
        cases hc'
        exact hid
      · rw [hd.votes, StorageMap.get_insert_ne]
        rintro ⟨⟩
        exact hid rfl
      · unfold tallyOf
        rw [hd.tallies, StorageMap.getD_insert, if_neg]
        rintro ⟨⟩
        exact hid rfl

end Verigov
