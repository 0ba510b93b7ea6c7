import Verigov.Delay
import Verigov.Progress

/-!
# The batch of a block

The hook works off the slot of its block one id after the other, and each
enactment reads what the ones before have written. The outcome is still that of
the whole batch at once: whether a proposal is logged is decided by Eq. 1 in the
storage before the hook, and the log grows by those that pass, in the order of
the slot. `Batched` says this of the ids worked off so far.
-/

namespace Verigov

open State Transition Agenda

variable {T : Config} {s s' m : State T} {id : Nat} {ids : List Nat}

namespace State

def passes (s : State T) (id : Nat) : Bool :=
  (s.proposals.get id).any fun pr => (s.projects.get pr.projectId).any fun info =>
    meetsQuorums pr.projectId info id s

def passing (s : State T) (ids : List Nat) (p : Nat) : List Nat :=
  ids.filter fun id => s.passes id && (s.proposals.get id).any (·.projectId == p)

def passingBonds (s : State T) (ids : List Nat) (a : T.AccountId) : Nat :=
  ((ids.filter s.passes).map fun id => (s.proposals.get id).elim 0 (·.bondOf a)).sum

end State

/-- The storage `m` is `s` with `ids` settled in block `now`. -/
structure Batched (s : State T) (now : Nat) (ids : List Nat) (m : State T) : Prop where
  settled : ∀ id ∈ ids, m.proposals.get id = (s.proposals.get id).map
    ({ · with status := if s.passes id then .enacted else .voting })
  others : ∀ id ∉ ids, m.proposals.get id = s.proposals.get id
  count : ∀ p, m.releaseCountOf p = s.releaseCountOf p + (s.passing ids p).length
  appended : ∀ p i id pr, (s.passing ids p)[i]? = some id → s.proposals.get id = some pr →
    m.releaseLog.get (p, s.releaseCountOf p + i) = some (entryOf id pr now)
  kept : ∀ p i, i < s.releaseCountOf p ∨ s.releaseCountOf p + (s.passing ids p).length ≤ i →
    m.releaseLog.get (p, i) = s.releaseLog.get (p, i)
  held : ∀ reason a, T.currency.balanceOnHold reason a m.balances +
    (if reason = .proposalBond then s.passingBonds ids a else 0) =
      T.currency.balanceOnHold reason a s.balances

theorem passes_eq (hpr : s.proposals.get id = some pr)
    (hproj : s.projects.get pr.projectId = some info) :
    s.passes id = meetsQuorums pr.projectId info id s := by
  simp [passes, hpr, hproj]

theorem passing_append (s : State T) (ids : List Nat) (id p : Nat) :
    s.passing (ids ++ [id]) p = s.passing ids p ++
      if s.passes id && (s.proposals.get id).any (·.projectId == p) then [id] else [] := by
  rw [passing, List.filter_append, List.filter_singleton, Bool.cond_eq_ite]
  rfl

theorem passingBonds_append (s : State T) (ids : List Nat) (id : Nat) (a : T.AccountId) :
    s.passingBonds (ids ++ [id]) a = s.passingBonds ids a +
      if s.passes id then (s.proposals.get id).elim 0 (·.bondOf a) else 0 := by
  rw [passingBonds, List.filter_append, List.filter_singleton, Bool.cond_eq_ite, List.map_append,
    List.sum_append]
  split <;> simp [passingBonds]

theorem batched_nil (s : State T) (now : Nat) : Batched s now [] (takeSlot s) where
  settled := by simp
  others _ _ := rfl
  count _ := rfl
  appended := by simp [passing]
  kept _ _ _ := rfl
  held reason a := by simp [passingBonds, takeSlot]

-- ---------------------------------------------------------------------------
-- One more id
-- ---------------------------------------------------------------------------

theorem Batched.revoke (h : Batched s now ids m) (hid : id ∉ ids)
    (hpr : s.proposals.get id = some pr) (hfail : s.passes id = false) :
    Batched s now (ids ++ [id]) (revokeAtEnactment id m) := by
  have hget : m.proposals.get id = some pr := (h.others id hid).trans hpr
  have hpassing : ∀ p, s.passing (ids ++ [id]) p = s.passing ids p := by
    intro p
    simp [passing_append, hfail]
  have hbonds : s.passingBonds (ids ++ [id]) = s.passingBonds ids := by
    funext a
    simp [passingBonds_append, hfail]
  refine ⟨fun id' hid' => ?_, fun id' hid' => ?_, fun p => ?_, fun p i => ?_, fun p i => ?_,
    fun reason a => ?_⟩
  · rw [revokeAtEnactment_get]
    by_cases heq : id' = id
    · subst heq
      simp [withStatus_self hget, hpr, hfail]
    · rw [withStatus_ne heq]
      exact h.settled id' (by simpa [heq] using hid')
  · simp only [List.mem_append, List.mem_singleton, not_or] at hid'
    rw [revokeAtEnactment_get, withStatus_ne hid'.2]
    exact h.others id' hid'.1
  · rw [hpassing]
    exact h.count p
  · rw [hpassing]
    exact h.appended p i
  · rw [hpassing]
    exact h.kept p i
  · rw [hbonds]
    exact h.held reason a

theorem Batched.release (h : Batched s now ids m) (hid : id ∉ ids)
    (hpr : s.proposals.get id = some pr) (ho : pr.status.isOpen = true)
    (hpass : s.passes id = true)
    (hroom : s.releaseCountOf pr.projectId + (s.passing ids pr.projectId).length < u32Max)
    (hheld : ∀ r a, T.currency.balanceOnHold r a (logRelease id pr now m).balances +
      (if r = .proposalBond ∧ a = pr.proposer then pr.bond else 0) =
        T.currency.balanceOnHold r a m.balances) :
    Batched s now (ids ++ [id]) (logRelease id pr now m) := by
  have hself : s.passing (ids ++ [id]) pr.projectId = s.passing ids pr.projectId ++ [id] := by
    simp [passing_append, hpass, hpr]
  have hother : ∀ p, p ≠ pr.projectId → s.passing (ids ++ [id]) p = s.passing ids p := by
    intro p hp
    simp [passing_append, hpr, hp.symm]
  refine ⟨fun id' hid' => ?_, fun id' hid' => ?_, fun p => ?_, fun p i id' pr' hi hpr' => ?_,
    fun p i hi => ?_, fun reason a => ?_⟩
  · rw [logRelease_proposals]
    by_cases heq : id' = id
    · subst heq
      simp [hpr, hpass]
    · rw [if_neg heq]
      exact h.settled id' (by simpa [heq] using hid')
  · simp only [List.mem_append, List.mem_singleton, not_or] at hid'
    rw [logRelease_proposals, if_neg hid'.2]
    exact h.others id' hid'.1
  · rw [logRelease_count]
    by_cases hp : p = pr.projectId
    · subst hp
      rw [if_pos rfl, hself, h.count, saturatingAdd_u32 hroom, List.length_append]
      rfl
    · rw [if_neg hp, hother p hp]
      exact h.count p
  · rw [logRelease_get, h.count]
    by_cases hp : p = pr.projectId
    · subst hp
      rw [hself] at hi
      rcases Nat.lt_or_ge i (s.passing ids pr.projectId).length with hlt | hge
      · rw [List.getElem?_append_left hlt] at hi
        rw [if_neg (by simp; omega)]
        exact h.appended _ i id' pr' hi hpr'
      · rw [List.getElem?_append_right hge, List.getElem?_singleton] at hi
        split at hi
        · cases hi
          rw [hpr] at hpr'
          cases hpr'
          rw [if_pos (by simp; omega)]
        · cases hi
    · rw [hother p hp] at hi
      rw [if_neg (by simp [hp])]
      exact h.appended p i id' pr' hi hpr'
  · rw [logRelease_get, h.count]
    by_cases hp : p = pr.projectId
    · subst hp
      rw [hself, List.length_append, List.length_singleton] at hi
      rw [if_neg (by simp; omega)]
      exact h.kept _ i (by omega)
    · rw [hother p hp] at hi
      rw [if_neg (by simp [hp])]
      exact h.kept p i hi
  · have h1 := h.held reason a
    have h2 := hheld reason a
    rw [passingBonds_append, if_pos hpass, hpr]
    simp only [Option.elim_some, Proposal.bondOf, ho, and_true]
    by_cases hr : reason = .proposalBond
    · subst hr
      simp only [if_true, true_and] at h1 h2 ⊢
      by_cases ha : a = pr.proposer
      · simp only [ha, if_true] at h1 h2 ⊢
        omega
      · simp only [ha, Ne.symm ha, if_false] at h1 h2 ⊢
        omega
    · simp only [hr, if_false, false_and] at h1 h2 ⊢
      omega

-- ---------------------------------------------------------------------------
-- The whole slot
-- ---------------------------------------------------------------------------

theorem logRelease_held (hrel : T.currency.ReleaseExact) (hs : Covered s)
    (hpr : s.proposals.get id = some pr) (hst : pr.status = .approved e) (now : Nat)
    (r : HoldReason) (a : T.AccountId) :
    T.currency.balanceOnHold r a (logRelease id pr now s).balances +
      (if r = .proposalBond ∧ a = pr.proposer then pr.bond else 0) =
        T.currency.balanceOnHold r a s.balances := by
  have ho : pr.status.isOpen = true := by rw [hst]; rfl
  have hle : pr.bond ≤ T.currency.balanceOnHold .proposalBond pr.proposer s.balances :=
    Nat.le_trans (bond_le_bonds hpr ho) (hs pr.proposer)
  have hmoved := (hrel.moves _ _ _ _ _ _ (logRelease_escrow hrel hs hpr hst now).1).2 r a
  by_cases hra : r = .proposalBond ∧ a = pr.proposer
  · obtain ⟨rfl, rfl⟩ := hra
    simp only [and_self, if_true] at hmoved ⊢
    omega
  · simp only [hra, if_false] at hmoved ⊢
    omega

theorem hookState_batched (hrel : T.currency.ReleaseExact) (hcov : Covered s)
    (hproj : HasProject s) (hnd : ids.Nodup)
    (happ : ∀ id ∈ ids, ∃ pr e, s.proposals.get id = some pr ∧ pr.status = .approved e)
    (hroom : ∀ p, s.releaseCountOf p + (s.passing ids p).length ≤ u32Max) :
    Batched s (s.blockNumber + 1) ids (hookState s ids) := by
  induction ids using List.reverseRecOn with
  | nil => exact batched_nil s _
  | append_singleton ids id ih =>
    obtain ⟨hnd, -, hdis⟩ := List.nodup_append.mp hnd
    have hid : id ∉ ids := fun hmem => hdis id hmem id (by simp) rfl
    have hlen : ∀ p, (s.passing ids p).length ≤ (s.passing (ids ++ [id]) p).length := by
      intro p
      simp [passing_append]
    have hb := ih hnd (fun i hi => happ i (by simp [hi]))
      fun p => Nat.le_trans (Nat.add_le_add_left (hlen p) _) (hroom p)
    obtain ⟨pr, e, hpr, hst⟩ := happ id (by simp)
    obtain ⟨info, hinfo⟩ := Option.isSome_iff_exists.mp (hproj id pr hpr)
    have hget : (hookState s ids).proposals.get id = some pr := (hb.others id hid).trans hpr
    have hframe := (hookState_frame s ids).1
    have hcov' := (hookState_escrow hrel hcov ids).1
    rw [hookState_append]
    rcases enact_cases id (s.blockNumber + 1) (hookState s ids) with
      ⟨pr', _, info', hpr', -, hinfo', hcase⟩ | ⟨-, hno⟩
    · rw [hget] at hpr'
      cases hpr'
      rw [hframe.projects, hinfo] at hinfo'
      cases hinfo'
      rw [hframe.meetsQuorums, ← passes_eq hpr hinfo] at hcase
      rcases hcase with ⟨hpass, heq⟩ | ⟨hfail, heq⟩ <;> rw [heq]
      · refine hb.release hid hpr (by rw [hst]; rfl) hpass ?_
          (logRelease_held hrel hcov' hget hst _)
        have hp := hroom pr.projectId
        simp only [passing_append, hpass, hpr, Option.any_some, beq_self_eq_true, Bool.and_self,
          if_true, List.length_append, List.length_singleton] at hp
        omega
      · exact hb.revoke hid hpr hfail
    · have hnone := hno pr e hget hst
      rw [hframe.projects, hinfo] at hnone
      cases hnone

/-- The log of every project has room for what the batch of the next block adds. -/
def RoomInLog (s : State T) : Prop :=
  ∀ p, s.releaseCountOf p + (s.passing (s.pendingAt (s.blockNumber + 1)).val p).length ≤ u32Max

/-- In a run in which no proposal id is reused, the hook of the next block settles
its slot as one batch: those that pass Eq. 1 before the hook are appended to the
logs of their projects in the order of the slot, are enacted and have their bonds
released, the others go back to voting, and nothing else changes. -/
theorem nextBlock_batched (hhold : T.currency.HoldExact) (hrel : T.currency.ReleaseExact)
    (hburn : T.currency.BurnKeepsReasons) (h : Reaches tr s) (hf : Along FreshProposal tr)
    (hroom : RoomInLog s) :
    let ids := (s.pendingAt (s.blockNumber + 1)).val
    Batched s (s.blockNumber + 1) ids (nextBlock s) ∧
      (∀ id ∈ ids, (s.proposals.get id).isSome) ∧
      (∀ p i, i < (s.passing ids p).length →
        s.releaseLog.get (p, s.releaseCountOf p + i) = none) ∧
      (nextBlock s).pendingAt (s.blockNumber + 1) = .empty ∧
      (∀ b, b ≠ s.blockNumber + 1 → (nextBlock s).pendingAt b = s.pendingAt b) ∧
      (nextBlock s).votes = s.votes ∧ (nextBlock s).tallies = s.tallies ∧
      (nextBlock s).stakeholders = s.stakeholders ∧ (nextBlock s).roleStake = s.roleStake := by
  intro ids
  have hagrees := h.agrees hf
  have happ : ∀ id ∈ ids, ∃ pr e, s.proposals.get id = some pr ∧ pr.status = .approved e := by
    intro id hid
    obtain ⟨pr, hpr, hst⟩ := due_eq_some.mp ((hagrees.mem_iff _ id).mp hid)
    exact ⟨pr, _, hpr, hst⟩
  obtain ⟨hframe, -, hslots⟩ := nextBlock_frame s
  refine ⟨?_, fun id hid => ?_, fun p i hi => ?_, ?_, fun b hb => ?_, hframe.votes, hframe.tallies,
    hframe.stakeholders, hframe.roleStake⟩
  · rw [nextBlock_eq]
    exact hookState_batched hrel (h.covered hhold hrel hburn) h.hasProject (hagrees.nodup _) happ
      hroom
  · obtain ⟨pr, -, hpr, -⟩ := happ id hid
    simp [hpr]
  · -- A counter below its limit is past every index in use.
    by_contra hused
    have hp : s.releaseCountOf p + (s.passing ids p).length ≤ u32Max := hroom p
    rcases (h.numbered.log p).2 with hlt | hmax
    · have := hlt (s.releaseCountOf p + i) (Option.isSome_iff_ne_none.mpr hused)
      omega
    · omega
  · rw [pendingAt, hslots, StorageMap.getD_remove, if_pos rfl]
  · rw [pendingAt, hslots, StorageMap.getD_remove, if_neg hb]
    rfl

theorem nextBlock_batched_two :
    let s := Mock.after [Mock.genesis .coreDeveloper (Mock.percent 30) 1 5, Mock.propose 8 1,
      Mock.propose 9 2]
    Batched s 2 [0, 1] (nextBlock s) ∧ s.passing [0, 1] 0 = [0, 1] ∧
      s.passingBonds [0, 1] (1 : Nat) = 10 := by
  intro s
  have hids : (s.pendingAt (s.blockNumber + 1)).val = [0, 1] := by decide +kernel
  have hnow : s.blockNumber + 1 = 2 := by decide +kernel
  have hcount : ∀ p, s.releaseCountOf p ≤ 0 :=
    (StorageMap.forall_getD (P := (· ≤ 0)) (Nat.le_refl 0)).mp (by decide +kernel)
  have hroom : RoomInLog s := by
    intro p
    have hlen : (s.passing [0, 1] p).length ≤ 2 := List.length_filter_le ..
    rw [hids]
    exact Nat.le_trans (Nat.add_le_add (hcount p) hlen) (by decide)
  have h := (nextBlock_batched Ledger.holdExact Ledger.releaseExact Ledger.burnKeepsReasons
    (Mock.reaches _) (by decide +kernel) hroom).1
  rw [hids, hnow] at h
  exact ⟨h, by decide +kernel, by decide +kernel⟩

-- ---------------------------------------------------------------------------
-- One id twice in a slot
-- ---------------------------------------------------------------------------

theorem enact_enact (id now : Nat) (s : State T) :
    enact id now (enact id now s) = enact id now s := by
  rcases enact_cases id now s with ⟨pr, e, info, hpr, -, -, ⟨-, heq⟩ | ⟨-, heq⟩⟩ | ⟨heq, -⟩ <;>
    rw [heq]
  · have hget := (logRelease_proposals s id now pr id).trans (if_pos rfl)
    simp [enact, hget]
  · have hget := (revokeAtEnactment_get s id id).trans (withStatus_self hpr _)
    simp [enact, hget]
  · exact heq

namespace Mock

def twice (id : Nat) : BoundedVec Nat maxEnactmentsPerBlock :=
  ⟨[id, id], by simp [maxEnactmentsPerBlock]⟩

/-- In block 1 the proposal with the last id is approved for block 3. -/
structure Once (info : ProjectInfo) (s : State Test) : Prop extends TwoOfThree info s where
  next : s.nextProposalId = u32Max
  block : s.blockNumber = 1
  slot : ∀ b, s.pendingAt b = if b = 3 then only u32Max else .empty
  tally : s.tallyOf u32Max .coreDeveloper = { ayes := 2000 }
  vote : s.votes.get (u32Max, (1 : Nat)) = some true
  log : s.releaseLog = .empty
  count : s.releaseCount = .empty
  funds : Solvent s.balances

theorem Filing.once {s : State Test} (h : Filing u32Max info s) (hlog : s.releaseLog = .empty)
    (hcount : s.releaseCount = .empty) :
    ∃ tr m, Verigov.exec [Mock.propose 8 1, Mock.vote 2 u32Max true] s = some (tr, m) ∧
      Once info m := by
  obtain ⟨bal, hfunds, hpropose⟩ := h.propose
  refine ⟨[(s, Mock.propose 8 1), (Mock.filed info bal s, Mock.vote 2 u32Max true)],
    approved 3 2 (Mock.filed info bal s), ?_, ?_⟩
  · simp [Verigov.exec, hpropose, h.approve bal]
  · exact {
      toTwoOfThree := h.congr rfl rfl rfl
      next := h.next_filed bal
      block := h.block
      slot := fun b => (pendingAt_approved ..).trans (congrArg _ (h.slot b))
      tally := h.tally_second bal
      vote := by
        refine (StorageMap.get_insert_ne _ _ (by simp)).trans ?_
        rw [← h.next]
        exact StorageMap.get_insert_self ..
      log := hlog
      count := hcount
      funds := hfunds }

/-- The slot of block 3 has the last id twice, and the proposal with that id is
approved. -/
structure Doubled (info : ProjectInfo) (s : State Test) : Prop extends TwoOfThree info s where
  slot : ∀ b, s.pendingAt b = if b = 3 then twice u32Max else .empty
  tally : s.tallyOf u32Max .coreDeveloper = { ayes := 2000 }
  proposal : ∃ pr, s.proposals.get u32Max = some pr ∧ pr.projectId = 0
  log : s.releaseLog = .empty
  count : s.releaseCount = .empty

theorem Once.propose {s : State Test} (h : Once info s) :
    ∃ t, perform (Mock.propose 8 1) s = some t ∧ t.blockNumber = 1 ∧ Doubled info t := by
  obtain ⟨bal, -, hpropose⟩ := perform_propose h.toTwoOfThree h.funds
  rw [h.next] at hpropose
  generalize hm : addProposal (T := Test) (release info s) bal s = m at hpropose
  have hget : m.proposals.get u32Max = some (release info s) := hm ▸ refiled_get h.next bal
  have hp : TwoOfThree info (recordVote (T := Test) u32Max (1 : Nat) developer true m) :=
    hm ▸ h.congr rfl rfl rfl
  have htally : (recordVote (T := Test) u32Max (1 : Nat) developer true m).tallyOf u32Max
      .coreDeveloper = { ayes := 2000 } := hm ▸ tally_refiled h.tally h.vote bal
  have hdate : saturatingAdd Test.maxBlockNumber s.blockNumber info.policy.enactmentDelay = 3 := by
    rw [h.block, h.delay]
    decide
  have hids : (m.pendingAt (saturatingAdd Test.maxBlockNumber s.blockNumber
      info.policy.enactmentDelay)).tryPush u32Max = some (twice u32Max) := by
    rw [hdate, ← hm]
    show (s.pendingAt 3).tryPush u32Max = _
    rw [h.slot]
    rfl
  have hmet : meetsQuorums 0 info u32Max
      (recordVote (T := Test) u32Max (1 : Nat) developer true m) = true := by
    rw [hp.meetsQuorums (congrArg RoleTally.ayes htally)]
    decide
  rw [doVote_of_met hget rfl hmet hids, hdate] at hpropose
  have hrec : (recordVote (T := Test) u32Max (1 : Nat) developer true m).proposals.get u32Max =
      some (release info s) := hget
  refine ⟨_, hpropose, hm ▸ h.block, ?_⟩
  exact {
    toTwoOfThree := hp.congr rfl rfl rfl
    slot := fun b => by
      refine (StorageMap.getD_insert ..).trans ?_
      subst hm
      by_cases hb : b = 3
      · simp [hb]
      · rw [if_neg hb, if_neg hb]
        exact (h.slot b).trans (if_neg hb)
    tally := htally
    proposal := ⟨_, (approve_get ..).trans (withStatus_self hrec _), rfl⟩
    log := hm ▸ h.log
    count := hm ▸ h.count }

theorem Doubled.block {s : State Test} (h : Doubled info s) (hn : s.blockNumber = 1) :
    perform .block s = some (takeSlot s) ∧ (takeSlot s).blockNumber = 2 ∧
      Doubled info (takeSlot s) := by
  refine ⟨(if_pos (by rw [hn]; decide)).trans (congrArg some ?_), congrArg (· + 1) hn, ?_⟩
  · rw [nextBlock_eq, hn, h.slot, if_neg (by decide)]
    rfl
  · exact {
      toTwoOfThree := h.congr rfl rfl rfl
      slot := fun b => by
        refine (StorageMap.getD_remove ..).trans ?_
        rw [hn]
        by_cases hb : b = 2
        · simp [hb]
        · rw [if_neg hb]
          exact h.slot b
      tally := h.tally
      proposal := h.proposal
      log := h.log
      count := h.count }

theorem Doubled.passes {s : State Test} (h : Doubled info s) : s.passes u32Max = true := by
  obtain ⟨pr, hpr, hproj⟩ := h.proposal
  rw [passes_eq hpr (hproj ▸ h.project), hproj, h.meetsQuorums (congrArg RoleTally.ayes h.tally)]
  decide

theorem Doubled.nextBlock {s : State Test} (h : Doubled info s) (hn : s.blockNumber = 2) :
    (nextBlock s).releaseLog.get (0, 1) = none := by
  obtain ⟨pr, hpr, hproj⟩ := h.proposal
  have hnow : s.blockNumber + 1 = 3 := congrArg (· + 1) hn
  have hempty : (takeSlot s).releaseLog.get (0, 1) = none := by
    show s.releaseLog.get (0, 1) = none
    rw [h.log, StorageMap.get_empty]
  have hzero : (takeSlot s).releaseCountOf 0 = 0 := by
    show s.releaseCount.getD 0 0 = 0
    rw [h.count, StorageMap.getD_empty]
  have hnext : Verigov.nextBlock s = enact u32Max 3 (takeSlot s) := by
    rw [nextBlock_eq, hnow, h.slot]
    show enact u32Max (s.blockNumber + 1) (enact u32Max (s.blockNumber + 1) (takeSlot s)) = _
    rw [hnow, enact_enact]
  rw [hnext]
  rcases enact_cases u32Max 3 (takeSlot s) with
    ⟨pr', _, _, hpr', -, -, ⟨-, heq⟩ | ⟨-, heq⟩⟩ | ⟨heq, -⟩ <;> rw [heq]
  · have hsame : s.proposals.get u32Max = some pr' := hpr'
    rw [hpr] at hsame
    cases hsame
    rw [logRelease_get, if_neg, hempty]
    rw [hproj, hzero]
    simp
  · exact hempty
  · exact hempty

end Mock

/-- When the counter is exhausted, a slot can list the last id twice. Both entries of
the slot pass Eq. 1, and one release is logged. -/
theorem reused_id_not_batched :
    ∃ tr s, exec ([Mock.genesis .coreDeveloper (Mock.percent 50) 2 0] ++
        List.replicate u32Max (Mock.propose 8 1) ++
        [Mock.propose 8 1, Mock.vote 2 u32Max true] ++ [Mock.propose 8 1, .block]) Mock.start =
          some (tr, s) ∧
      Reaches tr s ∧ s.blockNumber = 2 ∧ (s.pendingAt 3).val = [u32Max, u32Max] ∧
      s.passing [u32Max, u32Max] 0 = [u32Max, u32Max] ∧ s.releaseCountOf 0 = 0 ∧
      (nextBlock s).releaseLog.get (0, 1) = none ∧
      ¬ Batched s 3 [u32Max, u32Max] (nextBlock s) := by
  obtain ⟨info, hgenesis⟩ := Mock.filing_genesis
  obtain ⟨tr1, s1, h1, hs1, hlog1, hcount1⟩ := Mock.Filing.exec (n := u32Max)
    (J := fun m => m.releaseLog = .empty ∧ m.releaseCount = .empty) (fun _ _ _ hm => hm) hgenesis
    ⟨rfl, rfl⟩ (by rw [Nat.zero_add])
  rw [Nat.zero_add] at hs1
  obtain ⟨tr2, s2, h2, hs2⟩ := hs1.once hlog1 hcount1
  obtain ⟨t, h3, ht, hdoubled⟩ := hs2.propose
  obtain ⟨h4, hblock, hs⟩ := hdoubled.block ht
  have h34 : exec [Mock.propose 8 1, .block] s2 =
      some ([(s2, Mock.propose 8 1), (t, .block)], takeSlot t) := by
    simp [exec, h3, h4]
  have hexec := exec_append (exec_append (exec_append (Mock.exec_after _) h1) h2) h34
  obtain ⟨pr, hpr, hproj⟩ := hs.proposal
  have hpassing : (takeSlot t).passing [u32Max, u32Max] 0 = [u32Max, u32Max] := by
    simp [passing, hs.passes, hpr, hproj]
  have hzero : (takeSlot t).releaseCountOf 0 = 0 := by
    rw [releaseCountOf, hs.count, StorageMap.getD_empty]
  have hnone := hs.nextBlock hblock
  refine ⟨_, _, hexec, ⟨_, Mock.init_start, exec_run hexec⟩, hblock, congrArg _ (hs.slot 3),
    hpassing, hzero, hnone, fun hb => ?_⟩
  have hentry := hb.appended 0 1 u32Max pr (by rw [hpassing]; rfl) hpr
  rw [hzero, hnone] at hentry
  cases hentry

end Verigov
