import Verigov.Schedule
import Verigov.Escrow

/-!
# No proposal gets stuck

The slot of a block is worked off when the block begins, before its calls. An
approval whose date is the block of the approval itself lands in a slot that has
been worked off already, and stays there: this is what a policy with an
enactment delay of zero does. With positive delays every approval is dated
ahead, so it is settled in time or can be closed, and either way the bond goes
back to the proposer.
-/

namespace Verigov

open State Transition Agenda Function

variable {T : Config} {s s' : State T} {id : Nat}

/-- A `project_genesis` asks for an enactment delay of at least one block. -/
def PositiveDelay (_ : State T) (a : Action T) : Prop :=
  ∀ policy ∈ a.genesisPolicy, 0 < policy.enactmentDelay

instance (s : State T) (a : Action T) : Decidable (PositiveDelay s a) :=
  inferInstanceAs (Decidable (∀ policy ∈ a.genesisPolicy, 0 < policy.enactmentDelay))

/-- Approved proposals are in the slots of their dates, and these are ahead. -/
structure OnTime (s : State T) : Prop where
  covers : Covers s.slots s.due
  ahead : ∀ id b, s.due id = some b →
    b ≤ T.maxBlockNumber ∧ (s.blockNumber < T.maxBlockNumber → s.blockNumber < b)
  delay : ∀ p info, s.projects.get p = some info → 0 < info.policy.enactmentDelay
  hasProject : HasProject s

theorem Step.covers (h : Step s a s') (hp : HasProject s) (hs : Covers s.slots s.due) :
    Covers s'.slots s'.due := by
  cases h with
  | block => exact nextBlock_agenda (J := Covers) Covers.pop hp hs
  | failed => exact hs
  | other => exact hs
  | call origin c h =>
    rcases dispatch_agenda h with hop | ⟨-, hop⟩
    · exact hop.covers hs
    · exact hop.covers (hs.drop _)

theorem Reaches.covers (h : Reaches tr s) : Covers s.slots s.due := by
  refine h.induct (P := fun _ _ => True) (I := fun _ t => Covers t.slots t.due)
    (fun _ _ => trivial) ?_ ?_
  · rintro _ ⟨n, b, rfl, -⟩ id b hd
    simp [due] at hd
  · intro tr m a t hr _ hst _ hm
    exact hst.covers hr.hasProject hm

theorem dispatch_ahead (hs : OnTime s) (h : dispatch origin c s = .ok s')
    (hd : s'.due id = some b) :
    b ≤ T.maxBlockNumber ∧ (s.blockNumber < T.maxBlockNumber → s.blockNumber < b) := by
  have hdate : s.due id = some b ∨ EnactDate s b := by
    rcases dispatch_agenda h with hop | ⟨-, hop⟩
    · exact hop.date hd
    · refine (hop.date hd).imp_left fun hold => ?_
      by_cases hid : id = s.nextProposalId
      · subst hid
        simp at hold
      · rwa [update_of_ne hid] at hold
  rcases hdate with hold | ⟨p, info, hproj, rfl⟩
  · exact hs.ahead id b hold
  · have hpos := hs.delay p info hproj
    unfold saturatingAdd
    omega

theorem nextBlock_ahead (hp : HasProject s) (hs : Covers s.slots s.due)
    (hd : (nextBlock s).due id = some b) : s.due id = some b ∧ b ≠ s.blockNumber + 1 := by
  refine ⟨?_, ?_⟩
  · rcases nextBlock_proposal s id with hsame | ⟨-, pr, hpr, hset⟩
    · unfold due at hd ⊢
      rwa [hsame] at hd
    · rw [due_of_get hpr] at hd
      cases hset <;> cases hd
  · rintro rfl
    have hmem := nextBlock_agenda (J := Covers) Covers.pop hp hs id _ hd
    unfold slots pendingAt at hmem
    rw [(nextBlock_frame s).2.2, StorageMap.getD_remove, if_pos rfl] at hmem
    cases hmem

theorem Step.onTime (h : Step s a s') (hpos : PositiveDelay s a) (hs : OnTime s) : OnTime s' := by
  refine ⟨h.covers hs.hasProject hs.covers, fun id b hd => ?_, fun p info hproj => ?_,
    h.hasProject hs.hasProject⟩
  · cases h with
    | block =>
      obtain ⟨hold, hne⟩ := nextBlock_ahead hs.hasProject hs.covers hd
      obtain ⟨hmax, hahead⟩ := hs.ahead id b hold
      rw [(nextBlock_frame s).2.1]
      omega
    | failed => exact hs.ahead id b hd
    | other => exact hs.ahead id b hd
    | call origin c h =>
      rw [(dispatch_frame h).blockNumber]
      exact dispatch_ahead hs h hd
  · rcases h.projects with ⟨hsame, -⟩ | ⟨_, _, _, _, _, _, rfl, -, hput, -⟩
    · rw [hsame] at hproj
      exact hs.delay p info hproj
    · rw [hput, StorageMap.get_insert] at hproj
      split at hproj
      · cases hproj
        exact hpos _ rfl
      · exact hs.delay p info hproj

theorem Reaches.onTime (h : Reaches tr s) (hpos : Along PositiveDelay tr) : OnTime s := by
  obtain ⟨s0, ⟨n, b, rfl, -⟩, hr⟩ := h
  refine hr.invariant hpos ⟨?_, ?_, ?_, ?_⟩ fun _ _ _ hst hp => hst.onTime hp
  · intro id b hd
    simp [due] at hd
  · intro id b hd
    simp [due] at hd
  · intro p info hproj
    simp at hproj
  · intro id pr hpr
    simp at hpr

-- ---------------------------------------------------------------------------
-- Getting the bond back
-- ---------------------------------------------------------------------------

theorem hookState_released (hrel : T.currency.ReleaseExact) (hs : Covered s)
    (hpr : s.proposals.get id = some pr) (hst : pr.status = .approved e) (ids : List Nat) :
    (hookState s ids).heldBond pr.proposer +
        (if (hookState s ids).proposals.get id = some { pr with status := .enacted } then pr.bond
          else 0) ≤ s.heldBond pr.proposer := by
  induction ids using List.reverseRecOn with
  | nil =>
    have hne : (hookState s []).proposals.get id ≠ some { pr with status := .enacted } := by
      intro heq
      have hstatus := congrArg (Option.map Proposal.status) (hpr.symm.trans heq)
      simp [hst] at hstatus
    rw [if_neg hne]
    exact Nat.le_refl _
  | append_singleton ids id' ih =>
    have hcov := (hookState_escrow hrel hs ids).1
    rw [hookState_append]
    rcases enact_cases id' (s.blockNumber + 1) (hookState s ids) with
      ⟨pr', e', info, hpr', hst', -, ⟨-, heq⟩ | ⟨-, heq⟩⟩ | ⟨heq, -⟩ <;> rw [heq]
    · -- A release: the bond of `id'` leaves the hold of its proposer.
      have ho : pr'.status.isOpen = true := by rw [hst']; rfl
      have hrelease := (logRelease_escrow hrel hcov hpr' hst' (s.blockNumber + 1)).1
      have hheld := (hrel.eq_of_le (Nat.le_trans (bond_le_bonds hpr' ho) (hcov _)) hrelease).2
        pr.proposer
      rw [show (logRelease id' pr' (s.blockNumber + 1) (hookState s ids)).proposals.get id = _ from
        StorageMap.get_insert ..]
      unfold heldBond at ih ⊢
      by_cases hid : id = id'
      · subst hid
        rw [hookState_approved hpr' hst'] at hpr
        cases hpr
        rw [if_pos rfl] at hheld
        rw [if_pos rfl, if_pos rfl]
        omega
      · rw [if_neg hid]
        omega
    · have hheld : (revokeAtEnactment id' (hookState s ids)).heldBond pr.proposer =
          (hookState s ids).heldBond pr.proposer := rfl
      rw [hheld, revokeAtEnactment_get]
      by_cases hid : id = id'
      · subst hid
        rw [withStatus_self hpr', if_neg (by simp)]
        omega
      · rw [withStatus_ne hid]
        exact ih
    · exact ih

theorem closeExpired_returns (hrel : T.currency.ReleaseExact) (hs : Covered s)
    (hpr : s.proposals.get id = some pr) (hst : pr.status = .voting)
    (hends : pr.votingEnds < s.blockNumber) (who : T.AccountId) :
    ∃ s', closeExpired (.signed who) id s = .ok s' ∧
      s'.heldBond pr.proposer + pr.bond = s.heldBond pr.proposer := by
  have ho : pr.status.isOpen = true := by rw [hst]; rfl
  obtain ⟨b, hr, -⟩ := hrel.whole (Nat.le_trans (bond_le_bonds hpr ho) (hs pr.proposer))
  obtain ⟨s', hclose⟩ : ∃ s', closeExpired (.signed who) id s = .ok s' := by
    simp [closeExpired, ensureSigned, okOr, ensure, hpr, hst, hends, hr]
  obtain ⟨⟨pr', hpr', hrelease⟩, -⟩ := closeExpired_escrow hrel hs hclose
  rw [hpr] at hpr'
  cases hpr'
  exact ⟨s', hclose, bond_released hrel hpr ho (hs _) hrelease⟩

/-- The step closes proposal `id`, filed as `pr`, and takes its whole bond off the hold. -/
def Returns (id : Nat) (pr : Proposal T.AccountId) (x : State T × Action T × State T) : Prop :=
  (x.1.proposals.get id).any (·.status.isOpen) ∧ (x.2.2.proposals.get id).any (!·.status.isOpen) ∧
    x.2.2.heldBond pr.proposer + pr.bond ≤ x.1.heldBond pr.proposer

theorem Step.returns (hrel : T.currency.ReleaseExact) (hburn : T.currency.BurnKeepsReasons)
    (h : Step s a s') (hs : Covered s) (hpr : s.proposals.get id = some pr)
    (ho : pr.status.isOpen = true) (hpr' : s'.proposals.get id = some { pr with status })
    (hm : Moves a s.blockNumber id pr status) (hc : status.isOpen = false) :
    Returns id pr (s, a, s') := by
  refine ⟨by simp [hpr, ho], by simp [hpr', hc], ?_⟩
  cases hm with
  | stay => simp [ho] at hc
  | approve => cases hc
  | revoke => cases hc
  | enact ha hst =>
    subst ha
    cases h
    have hheld := hookState_released hrel hs hpr hst (s.pendingAt (s.blockNumber + 1)).val
    rwa [← nextBlock_eq, if_pos hpr'] at hheld
  | expire ha =>
    subst ha
    cases h with
    | call _ _ hcall =>
      obtain ⟨⟨pr0, hpr0, hr⟩, -⟩ := closeExpired_escrow hrel hs hcall
      rw [hpr] at hpr0
      cases hpr0
      exact Nat.le_of_eq (bond_released hrel hpr ho (hs _) hr)
  | reject ha =>
    subst ha
    cases h with
    | call _ _ hcall =>
      obtain ⟨⟨pr0, n, slashed, burned, hpr0, hb, hr⟩, -⟩ :=
        submitCounterAttestation_escrow hrel hburn hs hcall
      rw [hpr] at hpr0
      cases hpr0
      have hsame := hburn _ _ _ _ _ _ hb .proposalBond pr.proposer (by decide)
      have hheld := bond_released hrel hpr ho (hsame ▸ hs _) hr
      exact Nat.le_of_eq (hheld.trans hsame)

theorem Reaches.returned (hhold : T.currency.HoldExact) (hrel : T.currency.ReleaseExact)
    (hburn : T.currency.BurnKeepsReasons) (h : Reaches tr s) (hf : Along FreshProposal tr)
    (hx : (m, act, n) ∈ stepsOf tr s) (ha : act.isNewRelease = true)
    (hpr : n.proposals.get m.nextProposalId = some pr) :
    ∃ status, s.proposals.get m.nextProposalId = some { pr with status } ∧
      (status.isOpen = false → ∃ y ∈ stepsOf tr s, Returns m.nextProposalId pr y) := by
  refine h.induct (I := fun tr t => (m, act, n) ∈ stepsOf tr t → ∃ status,
    t.proposals.get m.nextProposalId = some { pr with status } ∧
      (status.isOpen = false → ∃ y ∈ stepsOf tr t, Returns m.nextProposalId pr y)) hf ?_ ?_ hx
  · intro s0 _ hx
    cases hx
  · intro tr k a t hr _ hst hfresh ih hx
    rw [stepsOf_snoc, List.mem_append, List.mem_singleton] at hx
    simp only [stepsOf_snoc, List.mem_append, List.mem_singleton]
    rcases hx with hx | heq
    · obtain ⟨status, hget, hret⟩ := ih hx
      obtain ⟨status', hget', hm⟩ := hst.kept hfresh hget
      refine ⟨status', hget', fun hc => ?_⟩
      by_cases ho : status.isOpen = true
      · have hcov := hr.covered hhold hrel hburn
        have hreturns := hst.returns hrel hburn hcov hget ho hget' hm hc
        exact ⟨_, .inr rfl, hreturns⟩
      · obtain ⟨y, hy, hreturns⟩ := hret (by simpa using ho)
        exact ⟨y, .inl hy, hreturns⟩
    · simp only [Prod.mk.injEq] at heq
      obtain ⟨rfl, rfl, rfl⟩ := heq
      refine ⟨pr.status, hpr, fun hc => ?_⟩
      rcases hst.proposal m.nextProposalId with hfiled | ⟨-, hnone⟩ | ⟨_, _, h0, -⟩
      · obtain ⟨-, -, -, -, -, -, -, -, hor, hput⟩ := hfiled
        rw [hpr] at hput
        cases hput
        rcases hor with rfl | ⟨e, rfl⟩ <;> cases hc
      · rw [hpr] at hnone
        cases hnone
      · rw [hfresh ha] at h0
        cases h0

/-- The voting period is over, and the proposal is as `pr`, approved for a block to
come if it is approved, or it is in voting again. -/
def Late (id : Nat) (pr : Proposal T.AccountId) (s : State T) : Prop :=
  ∃ status, s.proposals.get id = some { pr with status } ∧ pr.votingEnds < s.blockNumber ∧
    (status = pr.status ∨ status = .voting) ∧ ∀ e, status = .approved e → s.blockNumber < e

/-- The hook puts the proposal in voting or returns its bond, a challenge and
`close_expired` return the bond, and nothing else reaches it. -/
theorem Late.step (hl : Late id pr s) (ho : pr.status.isOpen = true)
    (hrel : T.currency.ReleaseExact) (hburn : T.currency.BurnKeepsReasons) (h : Step s a s')
    (hf : FreshProposal s a) (hp : HasProject s) (hcov : Covers s.slots s.due) (hs : Covered s) :
    Returns id pr (s, a, s') ∨ Late id pr s' := by
  obtain ⟨status, hget, hends, hor, hahead⟩ := hl
  have hopen : status.isOpen = true := by
    rcases hor with rfl | rfl
    · exact ho
    · rfl
  obtain ⟨status', hget', hm⟩ := h.kept hf hget
  have hreturns := h.returns hrel hburn hs hget hopen hget' hm
  have hlater : pr.votingEnds < s'.blockNumber := by
    rcases h.blockNumber with hb | ⟨-, hb⟩ <;> omega
  cases hm with
  | stay =>
    refine .inr ⟨status, hget', hlater, hor, fun e hst => ?_⟩
    have hlt := hahead e hst
    rcases h.blockNumber with hb | ⟨rfl, hb⟩
    · omega
    · cases h
      have hne := (nextBlock_ahead hp hcov (due_eq_some.mpr ⟨_, hget', hst⟩)).2
      omega
  | approve _ _ hn => exact absurd hends (Nat.not_lt.mpr hn)
  | revoke => exact .inr ⟨.voting, hget', hlater, .inr rfl, by rintro _ ⟨⟩⟩
  | reject => exact .inl (hreturns rfl)
  | expire => exact .inl (hreturns rfl)
  | enact => exact .inl (hreturns rfl)

theorem Reaches.late (hhold : T.currency.HoldExact) (hrel : T.currency.ReleaseExact)
    (hburn : T.currency.BurnKeepsReasons) (h : Reaches tr s) (hr : Run Step s tr' t)
    (hf : Along FreshProposal tr') (hl : Late id pr s) (ho : pr.status.isOpen = true) :
    (∃ y ∈ stepsOf tr' t, Returns id pr y) ∨ Late id pr t := by
  refine hr.induct (I := fun tr' t => (∃ y ∈ stepsOf tr' t, Returns id pr y) ∨ Late id pr t) hf
    (.inr hl) ?_
  rintro tr1 m a n hrun - hst hfresh ih
  have hm := h.append hrun
  simp only [stepsOf_snoc, List.mem_append, List.mem_singleton]
  rcases ih with ⟨y, hy, hreturns⟩ | hlate
  · exact .inl ⟨y, .inl hy, hreturns⟩
  · have hcov := hm.covered hhold hrel hburn
    rcases hlate.step ho hrel hburn hst hfresh hm.hasProject hm.covers hcov with hreturns | hlate'
    · exact .inl ⟨_, .inr rfl, hreturns⟩
    · exact .inr hlate'

theorem Late.closable (hl : Late id pr t) (hrel : T.currency.ReleaseExact) (hs : Covered t)
    (ho : pr.status.isOpen = true) (hdate : ∀ e, pr.status = .approved e → e ≤ t.blockNumber)
    (who : T.AccountId) : ∃ t', closeExpired (.signed who) id t = .ok t' ∧
      t'.heldBond pr.proposer + pr.bond = t.heldBond pr.proposer := by
  obtain ⟨status, hget, hends, hor, hahead⟩ := hl
  have hvoting : status = .voting := by
    rcases hor with rfl | hvoting
    · cases hst : pr.status with
      | voting => rfl
      | approved e => exact absurd (hdate e hst) (Nat.not_le.mpr (hahead e hst))
      | _ => simp [hst, ProposalStatus.isOpen] at ho
    · exact hvoting
  exact closeExpired_returns hrel hs hget hvoting hends who

/-- In a run in which every project has a positive enactment delay and no proposal id
is reused, an approval is dated ahead of the present block. So an open proposal past
its voting period can be closed by anybody or is in the slot of a later block.
Of every proposal that was filed the bond was returned when it closed. If it is open
past its voting period, then in every continuation that has come to its date the bond
has been returned, or anybody can close the proposal and so return it. -/
theorem not_stuck (hhold : T.currency.HoldExact) (hrel : T.currency.ReleaseExact)
    (hburn : T.currency.BurnKeepsReasons) (h : Reaches tr s) (hpos : Along PositiveDelay tr)
    (hf : Along FreshProposal tr) (hmax : s.blockNumber < T.maxBlockNumber) :
    (∀ id pr e, s.proposals.get id = some pr → pr.status = .approved e → s.blockNumber < e) ∧
    (∀ id pr, s.proposals.get id = some pr → pr.status.isOpen = true →
      pr.votingEnds < s.blockNumber →
      (∀ who, ∃ s', closeExpired (.signed who) id s = .ok s') ∨
        ∃ e, s.blockNumber < e ∧ e ≤ T.maxBlockNumber ∧ pr.status = .approved e ∧
          id ∈ (s.pendingAt e).val) ∧
    ∀ m act n pr, (m, act, n) ∈ stepsOf tr s → act.isNewRelease = true →
      n.proposals.get m.nextProposalId = some pr →
      ∃ status, s.proposals.get m.nextProposalId = some { pr with status } ∧
        (status.isOpen = false → ∃ y ∈ stepsOf tr s, Returns m.nextProposalId pr y) ∧
        (status.isOpen = true → pr.votingEnds < s.blockNumber →
          ∀ tr' t, Run Step s tr' t → Along FreshProposal tr' →
            (∀ e, status = .approved e → e ≤ t.blockNumber) →
            (∃ y ∈ stepsOf tr' t, Returns m.nextProposalId pr y) ∨
              ∀ who, ∃ t', closeExpired (.signed who) m.nextProposalId t = .ok t' ∧
                t'.heldBond pr.proposer + pr.bond = t.heldBond pr.proposer) := by
  have hs := h.onTime hpos
  have hc := h.covered hhold hrel hburn
  have hahead : ∀ id pr e, s.proposals.get id = some pr → pr.status = .approved e →
      s.blockNumber < e := fun id pr e hpr hst =>
    (hs.ahead id e (due_eq_some.mpr ⟨pr, hpr, hst⟩)).2 hmax
  refine ⟨hahead, fun id pr hpr ho hends => ?_, fun m act n pr hx ha hpr => ?_⟩
  · cases hst : pr.status with
    | voting =>
      refine .inl fun who => ?_
      obtain ⟨s', hclose, -⟩ := closeExpired_returns hrel hc hpr hst hends who
      exact ⟨s', hclose⟩
    | approved e =>
      have hdue := due_eq_some.mpr ⟨pr, hpr, hst⟩
      exact .inr ⟨e, hahead id pr e hpr hst, (hs.ahead id e hdue).1, rfl, hs.covers id e hdue⟩
    | _ => simp [hst, ProposalStatus.isOpen] at ho
  · obtain ⟨status, hget, hreturned⟩ := h.returned hhold hrel hburn hf hx ha hpr
    refine ⟨status, hget, hreturned, fun ho hends tr' t hr hf' hdate => ?_⟩
    have hlate : Late m.nextProposalId { pr with status } s :=
      ⟨status, hget, hends, .inl rfl, fun e => hahead _ _ e hget⟩
    rcases h.late hhold hrel hburn hr hf' hlate ho with hreturns | hlate'
    · exact .inl hreturns
    · exact .inr (hlate'.closable hrel ((h.append hr).covered hhold hrel hburn) ho hdate)

theorem not_stuck_expired :
    let s := Mock.after (Mock.genesis .coreDeveloper (Mock.percent 60) 10 7 :: Mock.propose 8 1 ::
      List.replicate 101 .block)
    s.blockNumber = 102 ∧ ∃ s', closeExpired (.signed (1 : Nat)) 0 s = .ok s' := by
  intro s
  have h := not_stuck (s := s) Ledger.holdExact Ledger.releaseExact Ledger.burnKeepsReasons
    (Mock.reaches _) (by decide +kernel) (by decide +kernel) (by decide +kernel)
  obtain ⟨pr, hpr, hfields⟩ := Option.map_eq_some_iff.mp (show (s.proposals.get 0).map
    (fun pr => (pr.status, pr.votingEnds)) = some (.voting, 101) by decide +kernel)
  simp only [Prod.mk.injEq] at hfields
  obtain ⟨hst, hends⟩ := hfields
  have hnow : s.blockNumber = 102 := by decide +kernel
  have hpast : pr.votingEnds < s.blockNumber := by omega
  refine ⟨hnow, ?_⟩
  rcases h.2.1 0 pr hpr (by rw [hst]; rfl) hpast with hclose | ⟨e, -, -, happ, -⟩
  · exact hclose 1
  · rw [hst] at happ
    cases happ

/-- With no delay the approval is dated to its own block, which has begun: a
hundred blocks later it is still approved and cannot be closed. -/
theorem stuck_without_delay :
    let s := Mock.after (Mock.genesis .coreDeveloper (Mock.percent 30) 0 7 :: Mock.propose 8 1 ::
      List.replicate 101 .block)
    Reachable s ∧ s.blockNumber = 102 ∧ s.blockNumber < Mock.Test.maxBlockNumber ∧
      (∃ pr, s.proposals.get 0 = some pr ∧ pr.status = .approved 1 ∧ pr.votingEnds = 101) ∧
      closeExpired (.signed (1 : Nat)) 0 s = .error (.pallet .proposalNotVoting) := by
  intro s
  obtain ⟨pr, hpr, hfields⟩ := Option.map_eq_some_iff.mp (show (s.proposals.get 0).map
    (fun pr => (pr.status, pr.votingEnds)) = some (.approved 1, 101) by decide +kernel)
  simp only [Prod.mk.injEq] at hfields
  refine ⟨⟨_, Mock.reaches _⟩, by decide +kernel, by decide +kernel, ⟨pr, hpr, hfields⟩, ?_⟩
  simp [closeExpired, ensureSigned, okOr, ensure, hpr, hfields.1, bind, Except.bind, pure,
    Except.pure, throw, throwThe, MonadExceptOf.throw]

end Verigov
