import Verigov.Frames

/-!
# The life of a proposal

`Step.proposal` says everything a step can do to one proposal: file it, leave
it alone, or move its status along an edge of `Moves`, with every other field
kept. The invariants of single storage items take from it what they need.
-/

namespace Verigov

open State

variable {T : Config} {s s' : State T} {id : Nat}

/-- The status that the action, at block `now`, may give proposal `id`. -/
inductive Moves (act : Action T) (now id : Nat) (pr : Proposal T.AccountId) : ProposalStatus → Prop
  | stay : Moves act now id pr pr.status
  | approve (ha : act = .call origin (.vote id aye)) (h : pr.status = .voting)
      (hn : now ≤ pr.votingEnds) : Moves act now id pr (.approved enactAt)
  | revoke (h : pr.status = .approved enactAt) : Moves act now id pr .voting
  | reject (ha : act = .call origin (.submitCounterAttestation id rebuilt))
      (h : pr.status.isOpen = true) : Moves act now id pr .rejected
  | expire (ha : act = .call origin (.closeExpired id)) (h : pr.status = .voting)
      (hn : pr.votingEnds < now) : Moves act now id pr .expired
  | enact (ha : act = .block) (h : pr.status = .approved enactAt) : Moves act now id pr .enacted

theorem Moves.closed {act : Action T} {pr : Proposal T.AccountId} (h : Moves act now id pr status)
    (hc : pr.status.isOpen = false) : status = pr.status := by
  cases h <;> simp_all [ProposalStatus.isOpen]

def Kept (act : Action T) (s s' : State T) (id : Nat) : Prop :=
  (s.proposals.get id = none ∧ s'.proposals.get id = none) ∨
    ∃ pr status, s.proposals.get id = some pr ∧ s'.proposals.get id = some { pr with status } ∧
      Moves act s.blockNumber id pr status

theorem Kept.of_eq (h : s'.proposals.get id = s.proposals.get id) : Kept act s s' id := by
  cases hpr : s.proposals.get id with
  | none => exact .inl ⟨hpr, h.trans hpr⟩
  | some pr => exact .inr ⟨pr, pr.status, hpr, h.trans hpr, .stay⟩

theorem Kept.of_withStatus (hpr : s.proposals.get id = some pr)
    (hm : Moves act s.blockNumber id pr status)
    (h : s'.proposals.get id' = withStatus s.proposals id status id') : Kept act s s' id' := by
  by_cases hid : id' = id
  · subst hid
    refine .inr ⟨pr, status, hpr, ?_, hm⟩
    simpa [withStatus, hpr] using h
  · exact .of_eq (by simpa [withStatus, hid] using h)

theorem withStatus_insert (hpr : s.proposals.get id = some pr) (status : ProposalStatus)
    (id' : Nat) :
    (s.proposals.insert id { pr with status }).get id' = withStatus s.proposals id status id' := by
  simp [withStatus, StorageMap.get_insert, hpr]

theorem vote_kept (h : vote origin id aye s = .ok s') (id' : Nat) :
    Kept (.call origin (.vote id aye)) s s' id' := by
  obtain ⟨who, pr, info, voter, -, hpr, -, hends, -, -, hv⟩ := vote_ok h
  obtain ⟨pr', hpr', ⟨hst, -, ids, -, rfl⟩ | ⟨enactAt, hst, -, rfl⟩ | ⟨rfl, -⟩⟩ := doVote_ok hv
  · rw [hpr] at hpr'
    cases hpr'
    exact .of_withStatus hpr (.approve rfl hst hends) (approve_get ..)
  · exact .of_withStatus hpr' (.revoke hst) (revokeApproval_get ..)
  · exact .of_eq rfl

theorem doVote_status (h : doVote id p project who voter aye now s = .ok s')
    (hpr : s.proposals.get id = some pr) (hst : pr.status = .voting) :
    ∃ status, s'.proposals.get id = some { pr with status } ∧
      (status = .voting ∨ ∃ enactAt, status = .approved enactAt) := by
  obtain ⟨pr', hpr', ⟨-, -, ids, -, rfl⟩ | ⟨enactAt, hap, -, rfl⟩ | ⟨rfl, -⟩⟩ := doVote_ok h <;>
    rw [hpr] at hpr' <;> cases hpr'
  · refine ⟨.approved (saturatingAdd T.maxBlockNumber now project.policy.enactmentDelay), ?_,
      .inr ⟨_, rfl⟩⟩
    have hget : (recordVote id who voter aye s).proposals.get id = some pr := hpr
    exact (approve_get ..).trans (withStatus_self hget _)
  · rw [hst] at hap
    cases hap
  · refine ⟨.voting, ?_, .inl rfl⟩
    rw [← hst]
    exact hpr

/-- What settling an approved proposal makes of it, by Eq. 1 as it stands in `s`. -/
inductive Settled (s : State T) (id : Nat) : Proposal T.AccountId → Prop
  | enacted (hpr : s.proposals.get id = some pr) (hst : pr.status = .approved enactAt)
      (hproj : s.projects.get pr.projectId = some info)
      (hmet : meetsQuorums pr.projectId info id s = true) :
      Settled s id { pr with status := .enacted }
  | revoked (hpr : s.proposals.get id = some pr) (hst : pr.status = .approved enactAt)
      (hproj : s.projects.get pr.projectId = some info)
      (hmet : meetsQuorums pr.projectId info id s = false) :
      Settled s id { pr with status := .voting }

/-- The loop of the hook settles the approved proposals among `ids`, each once: what
is settled is no longer approved, and the loop changes nothing that Eq. 1 reads. -/
theorem hookState_proposal (s : State T) (ids : List Nat) (id : Nat) :
    (hookState s ids).proposals.get id = s.proposals.get id ∨
      id ∈ ids ∧ ∃ pr, (hookState s ids).proposals.get id = some pr ∧ Settled s id pr := by
  induction ids using List.reverseRecOn with
  | nil => exact .inl rfl
  | append_singleton ids id' ih =>
    rw [hookState_append, List.mem_append, List.mem_singleton]
    by_cases hid : id = id'
    · subst hid
      rcases enact_cases id (s.blockNumber + 1) (hookState s ids) with
        ⟨pr, e, info, hpr, hst, hproj, hmet⟩ | ⟨heq, -⟩
      · -- It is still approved, so it has not been settled yet.
        rcases ih with hsame | ⟨-, pr', hpr', hset⟩
        · rw [hsame] at hpr
          rw [(hookState_frame s ids).1.projects] at hproj
          simp only [(hookState_frame s ids).1.meetsQuorums] at hmet
          rcases hmet with ⟨hmet, heq⟩ | ⟨hmet, heq⟩ <;> rw [heq]
          · exact .inr ⟨.inr rfl, _, StorageMap.get_insert_self .., .enacted hpr hst hproj hmet⟩
          · exact .inr ⟨.inr rfl, _, (revokeAtEnactment_get ..).trans
              (withStatus_self (hsame.trans hpr) _), .revoked hpr hst hproj hmet⟩
        · rw [hpr'] at hpr
          cases hpr
          cases hset <;> cases hst
      · rw [heq]
        exact ih.imp_right fun ⟨hmem, hset⟩ => ⟨.inl hmem, hset⟩
    · have hsame : (enact id' (s.blockNumber + 1) (hookState s ids)).proposals.get id =
          (hookState s ids).proposals.get id := by
        rcases enact_cases id' (s.blockNumber + 1) (hookState s ids) with
          ⟨pr, e, info, hpr, -, -, ⟨-, heq⟩ | ⟨-, heq⟩⟩ | ⟨heq, -⟩ <;> rw [heq]
        · exact StorageMap.get_insert_ne _ _ hid
        · exact (revokeAtEnactment_get ..).trans (withStatus_ne hid _)
      rw [hsame]
      exact ih.imp_right fun ⟨hmem, hset⟩ => ⟨.inl hmem, hset⟩

theorem hookState_approved (hpr : (hookState s ids).proposals.get id = some pr)
    (hst : pr.status = .approved e) : s.proposals.get id = some pr := by
  rcases hookState_proposal s ids id with hsame | ⟨-, pr', hpr', hset⟩
  · exact hsame ▸ hpr
  · rw [hpr'] at hpr
    cases hpr
    cases hset <;> cases hst

theorem nextBlock_proposal (s : State T) (id : Nat) :
    (nextBlock s).proposals.get id = s.proposals.get id ∨
      id ∈ (s.pendingAt (s.blockNumber + 1)).val ∧
        ∃ pr, (nextBlock s).proposals.get id = some pr ∧ Settled s id pr := by
  rw [nextBlock_eq]
  exact hookState_proposal s _ id

theorem nextBlock_kept (s : State T) (id : Nat) : Kept .block s (nextBlock s) id := by
  rcases nextBlock_proposal s id with h | ⟨-, pr, h, hset⟩
  · exact .of_eq h
  · cases hset with
    | enacted hpr hst => exact .inr ⟨_, .enacted, hpr, h, .enact rfl hst⟩
    | revoked hpr hst => exact .inr ⟨_, .voting, hpr, h, .revoke hst⟩

theorem addProposal_get_self :
    (addProposal pr bal s).proposals.get s.nextProposalId = some pr :=
  StorageMap.get_insert_self ..

theorem addProposal_get_ne (hid : id ≠ s.nextProposalId) :
    (addProposal pr bal s).proposals.get id = s.proposals.get id :=
  StorageMap.get_insert_ne _ _ hid

/-- The action is a `new_release` whose checks passed in `s` and whose proposal
`s'` has under `id`. -/
inductive Filed (s : State T) (id : Nat) (s' : State T) : Action T → Prop
  | mk (id_eq : id = s.nextProposalId)
      (project : s.projects.get p = some info)
      (proposer : s.stakeholders.get (p, who) = some x) (developer : x.role = .coreDeveloper)
      (builder : s.stakeholders.get (p, att.builder) = some y) (service : y.role = .buildService)
      (verified : T.verify sig att.signingPayload att.builder = true)
      (hold : T.currency.hold .proposalBond who info.proposalBond s.balances = .ok s'.balances)
      (isOpen : status = .voting ∨ ∃ enactAt, status = .approved enactAt)
      (proposal : s'.proposals.get id =
        some { newProposal info who p version att cid s with status }) :
      Filed s id s' (.call (.signed who) (.newRelease p version att cid sig))

theorem newRelease_filed (h : newRelease origin p version att cid sig s = .ok s') :
    Filed s s.nextProposalId s' (.call origin (.newRelease p version att cid sig)) := by
  obtain ⟨who, info, x, y, balances, rfl, hproj, hx, hxr, hy, hyr, hsig, hhold, hv⟩ :=
    newRelease_ok h
  obtain ⟨status, hst, hor⟩ := doVote_status hv addProposal_get_self rfl
  have hbal : s'.balances = balances := (doVote_frame hv).balances
  exact .mk rfl hproj hx hxr hy hyr hsig (hbal ▸ hhold) hor hst

theorem newRelease_other (h : newRelease origin p version att cid sig s = .ok s')
    (hid : id ≠ s.nextProposalId) : s'.proposals.get id = s.proposals.get id := by
  obtain ⟨who, project, proposer, builder, balances, -, -, -, -, -, -, -, -, hv⟩ := newRelease_ok h
  exact (doVote_get hv id hid).trans (addProposal_get_ne hid)

/-- Everything a step can do to the proposal with a given id. -/
theorem Step.proposal (h : Step s a s') (id : Nat) :
    Filed s id s' a ∨ Kept a s s' id := by
  cases h with
  | block => exact .inr (nextBlock_kept s id)
  | failed => exact .inr (.of_eq rfl)
  | other => exact .inr (.of_eq rfl)
  | call origin c h =>
    cases c with
    | projectGenesis name xs policy slashing bond =>
      obtain ⟨s1, -, -, hs1, -, rfl⟩ := projectGenesis_ok h
      exact .inr (.of_eq (by rw [← (registerAll_frame hs1).proposals]; rfl))
    | newRelease p version att cid sig =>
      by_cases hid : id = s.nextProposalId
      · subst hid
        exact .inl (newRelease_filed h)
      · exact .inr (.of_eq (newRelease_other h hid))
    | vote id' aye => exact .inr (vote_kept h id)
    | submitCounterAttestation id' rebuilt =>
      obtain ⟨who, pr, project, builder, slashed, burned, released, balances, -, hpr, -, -, -, -,
        hopen, -, -, -, rfl⟩ := submitCounterAttestation_ok h
      refine .inr (.of_withStatus hpr (.reject rfl hopen) ?_)
      rw [← withStatus_insert hpr]
      cases pr.status <;> rfl
    | closeExpired id' =>
      obtain ⟨who, pr, released, balances, -, hpr, hst, hends, -, rfl⟩ := closeExpired_ok h
      exact .inr (.of_withStatus hpr (.expire rfl hst hends) (withStatus_insert hpr ..))

theorem Step.rejected (h : Step s a s') (hc : a.challenged = none)
    (hpr : s'.proposals.get id = some pr) (hst : pr.status = .rejected) :
    s.proposals.get id = some pr := by
  rcases h.proposal id with ⟨-, -, -, -, -, -, -, -, hor, hf⟩ | ⟨-, hn⟩ | ⟨pr0, _, h0, h1, hm⟩
  · rw [hf] at hpr
    cases hpr
    rcases hor with rfl | ⟨e, rfl⟩ <;> cases hst
  · rw [hn] at hpr
    cases hpr
  · rw [h1] at hpr
    cases hpr
    cases hm with
    | stay => exact h0
    | reject ha => simp [ha, Action.challenged] at hc
    | _ => cases hst

theorem Step.proposals_isSome (h : Step s a s') (hid : (s.proposals.get id).isSome) :
    (s'.proposals.get id).isSome := by
  rcases h.proposal id with ⟨-, -, -, -, -, -, -, -, -, hf⟩ | ⟨hn, -⟩ | ⟨_, _, _, h', -⟩
  · simp [hf]
  · simp [hn] at hid
  · simp [h']

theorem Step.proposals_none (h : Step s a s') (hn : s'.proposals.get id = none) :
    s.proposals.get id = none := by
  by_contra hsome
  have hstill := h.proposals_isSome (Option.isSome_iff_ne_none.mpr hsome)
  simp [hn] at hstill

end Verigov
