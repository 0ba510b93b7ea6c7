import Verigov.Ids
import Verigov.Mock
import Verigov.Lib.Agenda

/-!
# The enactment schedule

`PendingEnactments` and the statuses of the proposals are an agenda: the slot
of a block lists the proposals due then. Each function is one write to it, or,
for the hook, the working off of a slot (`dispatch_agenda`, `nextBlock_agrees`).
-/

namespace Verigov

open State Transition Agenda Function

variable {T : Config} {s s' : State T} {id : Nat}

def ProposalStatus.enactAt : ProposalStatus → Option Nat
  | .approved enactAt => some enactAt
  | _ => none

namespace State

def slots (s : State T) (b : Nat) : List Nat := (s.pendingAt b).val

def due (s : State T) (id : Nat) : Option Nat := (s.proposals.get id).bind (·.status.enactAt)

end State

theorem due_eq_some : s.due id = some b ↔
    ∃ pr, s.proposals.get id = some pr ∧ pr.status = .approved b := by
  unfold due
  cases h : s.proposals.get id with
  | none => simp
  | some pr => cases hst : pr.status <;> simp [ProposalStatus.enactAt, hst]

theorem due_of_get (h : s.proposals.get id = some pr) : s.due id = pr.status.enactAt := by
  simp [due, h]

theorem due_congr (h : ∀ id, s'.proposals.get id = s.proposals.get id) : s'.due = s.due := by
  funext id
  simp [due, h]

theorem due_withStatus (status : ProposalStatus) (hpr : s.proposals.get id = some pr)
    (h : ∀ id', s'.proposals.get id' = withStatus s.proposals id status id') :
    s'.due = update s.due id status.enactAt := by
  funext id'
  by_cases hid : id' = id
  · subst hid
    simp [due, h, withStatus_self hpr]
  · simp [due, h, withStatus_ne hid, hid]

theorem slots_insert (s s' : State T) (b : Nat) (ids : BoundedVec Nat maxEnactmentsPerBlock)
    (h : s'.pendingEnactments = s.pendingEnactments.insert b ids) :
    s'.slots = update s.slots b ids.val := by
  funext c
  unfold slots pendingAt
  rw [h, StorageMap.getD_insert]
  by_cases hc : c = b
  · subst hc
    simp
  · simp [hc]

theorem slots_unschedule (s : State T) (b id : Nat) :
    (unschedule b id s).slots = update s.slots b ((s.slots b).filter (· != id)) :=
  slots_insert s _ b ((s.pendingAt b).retain (· != id)) rfl

-- ---------------------------------------------------------------------------
-- Calls
-- ---------------------------------------------------------------------------

def EnactDate (s : State T) (b : Nat) : Prop :=
  ∃ p info, s.projects.get p = some info ∧
    b = saturatingAdd T.maxBlockNumber s.blockNumber info.policy.enactmentDelay

theorem doVote_agenda (h : doVote id p info who voter aye now s = .ok s') :
    Op (· = saturatingAdd T.maxBlockNumber now info.policy.enactmentDelay)
      s.slots s.due s'.slots s'.due := by
  obtain ⟨pr, hpr, ⟨hst, -, ids, hids, rfl⟩ | ⟨enactAt, hst, -, rfl⟩ | ⟨rfl, -⟩⟩ := doVote_ok h
  · have hnone : s.due id = none := by simp [due_of_get hpr, hst, ProposalStatus.enactAt]
    have hdue := due_withStatus _ hpr (approve_get (recordVote id who voter aye s) id
      (saturatingAdd T.maxBlockNumber now info.policy.enactmentDelay) ids)
    have hslots := slots_insert s (approve id
      (saturatingAdd T.maxBlockNumber now info.policy.enactmentDelay) ids
      (recordVote id who voter aye s)) _ ids rfl
    rw [hdue, hslots, BoundedVec.val_tryPush hids]
    exact .push id _ hnone rfl
  · have hsome : s.due id = some enactAt := by simp [due_of_get hpr, hst, ProposalStatus.enactAt]
    have hdue := due_withStatus _ hpr
      (revokeApproval_get (recordVote id who voter aye s) id enactAt)
    have hslots : (revokeApproval id enactAt (recordVote id who voter aye s)).slots =
        update s.slots enactAt ((s.slots enactAt).filter (· != id)) :=
      slots_unschedule s enactAt id
    rw [hdue, hslots]
    exact .cancel id enactAt hsome
  · exact .keep

theorem rejectProposal_agenda (hpr : s.proposals.get id = some pr) (ho : pr.status.isOpen = true) :
    Op (EnactDate s) s.slots s.due
      (rejectProposal who id pr rebuilt y slashed bal (unscheduled id pr.status s)).slots
      (rejectProposal who id pr rebuilt y slashed bal (unscheduled id pr.status s)).due := by
  have hdue : (rejectProposal who id pr rebuilt y slashed bal (unscheduled id pr.status s)).due =
      update s.due id none := by
    refine due_withStatus .rejected hpr fun id' => ?_
    rw [← withStatus_insert hpr]
    cases pr.status <;> rfl
  cases hst : pr.status with
  | approved enactAt =>
    rw [hst] at hdue
    have hslots : (rejectProposal who id pr rebuilt y slashed bal
        (unscheduled id (.approved enactAt) s)).slots =
        update s.slots enactAt ((s.slots enactAt).filter (· != id)) :=
      slots_unschedule s enactAt id
    rw [hdue, hslots]
    exact .cancel id enactAt (by simp [due_of_get hpr, hst, ProposalStatus.enactAt])
  | voting =>
    have hsame : update s.due id none = s.due := by
      apply update_eq_self_iff.mpr
      simp [due_of_get hpr, hst, ProposalStatus.enactAt]
    rw [hst, hsame] at hdue
    rw [hdue]
    exact .keep
  | _ => simp [hst, ProposalStatus.isOpen] at ho

/-- A call is one write to the agenda. A `new_release` first takes the date, if
any, of the id it uses. -/
theorem dispatch_agenda (h : dispatch origin c s = .ok s') :
    Op (EnactDate s) s.slots s.due s'.slots s'.due ∨
      (∃ p version att cid sig, c = .newRelease p version att cid sig) ∧
        Op (EnactDate s) s.slots (update s.due s.nextProposalId none) s'.slots s'.due := by
  cases c with
  | projectGenesis name xs policy slashing bond =>
    obtain ⟨s1, -, -, hs1, -, rfl⟩ := projectGenesis_ok h
    have hf := registerAll_frame hs1
    left
    have hdue : s1.due = s.due := due_congr fun id => by rw [hf.proposals]
    have hslots : s1.slots = s.slots := by
      funext b
      unfold slots pendingAt
      rw [hf.pendingEnactments]
    rw [← hdue, ← hslots]
    exact .keep
  | newRelease p version att cid sig =>
    obtain ⟨who, info, x, y, balances, -, hproj, -, -, -, -, -, -, hv⟩ := newRelease_ok h
    refine .inr ⟨⟨p, version, att, cid, sig, rfl⟩, ?_⟩
    have hdue : (addProposal (newProposal info who p version att cid s) balances s).due =
        update s.due s.nextProposalId none := by
      funext id
      by_cases hid : id = s.nextProposalId
      · subst hid
        rw [update_self]
        exact due_of_get addProposal_get_self
      · rw [update_of_ne hid]
        unfold due
        rw [addProposal_get_ne hid]
    have hop := doVote_agenda hv
    rw [hdue] at hop
    exact hop.mono fun b hb => ⟨p, info, hproj, hb⟩
  | vote id aye =>
    obtain ⟨who, pr, info, voter, -, -, -, -, hproj, -, hv⟩ := vote_ok h
    exact .inl ((doVote_agenda hv).mono fun b hb => ⟨_, info, hproj, hb⟩)
  | submitCounterAttestation id rebuilt =>
    obtain ⟨who, pr, info, y, slashed, burned, released, balances, -, hpr, -, -, -, -, hopen, -, -,
      -, rfl⟩ := submitCounterAttestation_ok h
    exact .inl (rejectProposal_agenda hpr hopen)
  | closeExpired id =>
    obtain ⟨who, pr, released, balances, -, hpr, hst, -, -, rfl⟩ := closeExpired_ok h
    left
    have hdue : (depositEvent (.proposalExpired id) { s with
        balances, proposals := s.proposals.insert id { pr with status := .expired } }).due =
          update s.due id none := due_withStatus .expired hpr (withStatus_insert hpr _)
    have hsame : update s.due id none = s.due := by
      apply update_eq_self_iff.mpr
      simp [due_of_get hpr, hst, ProposalStatus.enactAt]
    rw [hdue]
    exact hsame.symm ▸ .keep

-- ---------------------------------------------------------------------------
-- The hook
-- ---------------------------------------------------------------------------

theorem enact_due (hp : HasProject s) : (enact id now s).due = update s.due id none := by
  rcases enact_cases id now s with ⟨pr, e, info, hpr, hst, -, ⟨-, heq⟩ | ⟨-, heq⟩⟩ | ⟨heq, hno⟩ <;>
    rw [heq]
  · exact due_withStatus .enacted hpr (withStatus_insert hpr _)
  · exact due_withStatus _ hpr (revokeAtEnactment_get s id)
  · symm
    apply update_eq_self_iff.mpr
    symm
    rw [Option.eq_none_iff_forall_ne_some]
    intro b hb
    obtain ⟨pr, hpr, hst⟩ := due_eq_some.mp hb
    have hsome := hp id pr hpr
    rw [hno pr b hpr hst] at hsome
    cases hsome

theorem enact_hasProject (hp : HasProject s) : HasProject (enact id now s) := by
  intro id' pr' hpr'
  rw [(enact_frame id now s).1.projects]
  rcases enact_cases id now s with ⟨pr, e, info, hpr, hst, -, ⟨-, heq⟩ | ⟨-, heq⟩⟩ | ⟨heq, -⟩ <;>
    rw [heq] at hpr'
  · have hget := (withStatus_insert hpr .enacted id').symm.trans hpr'
    obtain ⟨pr0, h0, hproj⟩ := withStatus_eq_some hget
    exact hproj ▸ hp id' pr0 h0
  · have hget := (revokeAtEnactment_get s id id').symm.trans hpr'
    obtain ⟨pr0, h0, hproj⟩ := withStatus_eq_some hget
    exact hproj ▸ hp id' pr0 h0
  · exact hp id' pr' hpr'

/-- The hook works off its slot, item by item, and keeps whatever that keeps. -/
theorem nextBlock_agenda {J : (Nat → List Nat) → (Nat → Option Nat) → Prop}
    (hpop : ∀ {slots due b i rest}, J (update slots b (i :: rest)) due →
      J (update slots b rest) (update due i none))
    (hp : HasProject s) (hs : J s.slots s.due) : J (nextBlock s).slots (nextBlock s).due := by
  -- While the loop runs, the slot in storage is empty and the list stands in for it.
  have hend : HasProject (nextBlock s) ∧
      J (update (nextBlock s).slots (s.blockNumber + 1) []) (nextBlock s).due := by
    refine nextBlock_induct (I := fun ids m => HasProject m ∧
      J (update m.slots (s.blockNumber + 1) ids) m.due) ⟨hp, ?_⟩ ?_
    · have hsame : update (takeSlot s).slots (s.blockNumber + 1) (s.slots (s.blockNumber + 1)) =
          s.slots := by
        funext b
        by_cases hb : b = s.blockNumber + 1
        · subst hb
          simp
        · rw [update_of_ne hb]
          simp [takeSlot, slots, pendingAt, StorageMap.getD_remove, hb]
      exact hsame.symm ▸ hs
    · rintro id ids m ⟨hm, hJ⟩
      refine ⟨enact_hasProject hm, ?_⟩
      have hslots : (enact id (s.blockNumber + 1) m).slots = m.slots := by
        funext b
        unfold slots pendingAt
        rw [(enact_frame id _ m).2.2]
      rw [enact_due hm, hslots]
      exact hpop hJ
  have hempty : (nextBlock s).slots (s.blockNumber + 1) = [] := by
    unfold slots pendingAt
    rw [(nextBlock_frame s).2.2, StorageMap.getD_remove, if_pos rfl]
    rfl
  have hsame : update (nextBlock s).slots (s.blockNumber + 1) [] = (nextBlock s).slots :=
    update_eq_self_iff.mpr hempty.symm
  exact hsame ▸ hend.2

-- ---------------------------------------------------------------------------
-- Schedule and status agree
-- ---------------------------------------------------------------------------

theorem Step.agrees (h : Step s a s') (hp : HasProject s) (hf : FreshProposal s a)
    (hs : Agrees s.slots s.due) : Agrees s'.slots s'.due := by
  cases h with
  | block => exact nextBlock_agenda (J := Agrees) Agrees.pop hp hs
  | failed => exact hs
  | other => exact hs
  | call origin c h =>
    rcases dispatch_agenda h with hop | ⟨⟨p, version, att, cid, sig, rfl⟩, hop⟩
    · exact hop.agrees hs
    · have hnone : s.due s.nextProposalId = none := by
        unfold due
        rw [hf rfl]
        rfl
      have hsame : update s.due s.nextProposalId none = s.due :=
        update_eq_self_iff.mpr hnone.symm
      rw [hsame] at hop
      exact hop.agrees hs

theorem Reaches.agrees (h : Reaches tr s) (hf : Along FreshProposal tr) :
    Agrees s.slots s.due := by
  refine h.induct (I := fun _ t => Agrees t.slots t.due) hf ?_ ?_
  · rintro _ ⟨n, b, rfl, -⟩
    refine ⟨fun b => ?_, fun b i => ?_⟩ <;> simp [slots, pendingAt, due]
  · intro tr m a t hr _ hst hfresh hm
    exact hst.agrees hr.hasProject hfresh hm

/-- The slot of a block lists, once each and at most 32 in all, exactly the
proposals approved for it. -/
theorem pendingAt_iff_approved (h : Reachable s) (hids : ProposalIdsBelowMax s) (b : Nat) :
    (s.pendingAt b).val.Nodup ∧ (s.pendingAt b).val.length ≤ 32 ∧
      ∀ id, id ∈ (s.pendingAt b).val ↔
        ∃ pr, s.proposals.get id = some pr ∧ pr.status = .approved b := by
  obtain ⟨tr, hr⟩ := h
  have hagrees := hr.agrees (hr.freshProposal hids).1
  refine ⟨hagrees.nodup b, (s.pendingAt b).length_le, fun id => ?_⟩
  rw [← due_eq_some]
  exact hagrees.mem_iff b id

theorem pendingAt_iff_approved_twice :
    let s := Mock.after [Mock.genesis .buildService (Mock.percent 50) 10 0, Mock.propose 8 1,
      Mock.propose 9 2, Mock.vote 8 0 true, Mock.vote 9 1 true]
    (s.pendingAt 11).val = [0, 1] ∧
      ∃ pr, s.proposals.get 1 = some pr ∧ pr.status = .approved 11 := by
  intro s
  have h := pendingAt_iff_approved (s := s) ⟨_, Mock.reaches _⟩ (by decide +kernel) 11
  have h0 : (s.pendingAt 11).val = [0, 1] := by decide +kernel
  exact ⟨h0, (h.2.2 1).mp (by rw [h0]; decide)⟩

end Verigov
