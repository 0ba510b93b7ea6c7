import Verigov.Custody
import Verigov.Delay
import Verigov.Isolation

/-!
# An unopposed approval is released on its date

The hook decides an approval on its date, by Eq. 1 as it is then. Ayes only help,
whatever has been slashed in between: a changed vote goes off one side and onto the
other at one stake, and no sum is clipped below what it was. Slashes lower the
denominators. So an approval is lost in three ways only: to a nay, to a challenge,
or with the last stake of a role it needs.
-/

namespace Verigov

open State Transition Agenda

variable {T : Config} {s s' t : State T} {id b : Nat} {pr : Proposal T.AccountId}
  {info : ProjectInfo} {tr tr' : Trace T} {a : Action T}

-- ---------------------------------------------------------------------------
-- Ayes
-- ---------------------------------------------------------------------------

theorem RoleTally.record_ayes_le {t : RoleTally} (h : t.ayes ≤ top) (prev : Option Bool)
    (stake : Nat) (aye : Bool) : (t.record top prev stake aye).ayes ≤ top := by
  rcases prev with _ | _ | _ <;> cases aye <;> simp only [record, saturatingAdd] <;> grind

theorem RoleTally.le_record_ayes {t : RoleTally} (h : t.ayes ≤ top) (prev : Option Bool)
    (stake : Nat) : t.ayes ≤ (t.record top prev stake true).ayes := by
  rcases prev with _ | _ | _ <;> simp only [record, saturatingAdd, if_true] <;> grind

def AyesFit (s : State T) : Prop := ∀ id r, (s.tallyOf id r).ayes ≤ T.maxBalance

theorem Step.ayesFit (h : Step s a s') (hs : AyesFit s) : AyesFit s' := by
  intro id r
  rcases h.ballotOn id with ⟨c, -, hdone, rfl⟩ | ⟨-, -, htally⟩
  · rw [hdone.tallyOf]
    split
    · exact RoleTally.record_ayes_le (hs _ _) _ _ _
    · exact hs _ r
  · rw [htally]
    exact hs id r

theorem Reaches.ayesFit (h : Reaches tr s) : AyesFit s := by
  obtain ⟨s0, ⟨n, b, rfl, -⟩, hr⟩ := h
  refine hr.always (fun id r => ?_) fun _ _ _ hst => hst.ayesFit
  simp [tallyOf]

def Unopposed (id : Nat) (s : State T) (a : Action T) : Prop :=
  (∀ c ∈ castOf s a, c.proposalId = id → c.aye = true) ∧ a.challenged ≠ some id

instance (id : Nat) (s : State T) (a : Action T) : Decidable (Unopposed id s a) :=
  inferInstanceAs (Decidable (_ ∧ _))

theorem Step.ayes_le (h : Step s a s') (ho : Unopposed id s a) (hs : AyesFit s) (r : Role) :
    (s.tallyOf id r).ayes ≤ (s'.tallyOf id r).ayes := by
  rcases h.ballotOn id with ⟨c, hc, hdone, rfl⟩ | ⟨-, -, htally⟩
  · rw [hdone.tallyOf]
    split
    · rename_i hr
      subst hr
      rw [Cast.tally, ho.1 c hc rfl]
      exact RoleTally.le_record_ayes (hs _ _) _ _
    · exact Nat.le_refl _
  · rw [htally]

theorem Quorate.mono (h : Quorate p info id s)
    (hstake : ∀ r, s'.roleStakeOf p r ≤ s.roleStakeOf p r)
    (hayes : ∀ r, (s.tallyOf id r).ayes ≤ (s'.tallyOf id r).ayes) : Quorate p info id s' := by
  intro rq hrq
  calc
    _ ≤ saturatingMul u128Max rq.quorum.deconstruct
          (saturatedInto u128Max (s.roleStakeOf p rq.role)) :=
      saturatingMul_mono (Nat.le_refl _) (saturatedInto_mono (hstake rq.role))
    _ ≤ _ := h rq hrq
    _ ≤ _ := saturatingMul_mono (saturatedInto_mono (hayes rq.role)) (Nat.le_refl _)

-- ---------------------------------------------------------------------------
-- Until the date
-- ---------------------------------------------------------------------------

theorem Step.approved_kept (h : Step s a s') (hf : FreshProposal s a)
    (hpr : s.proposals.get id = some pr) (hst : pr.status = .approved b) (ha : a ≠ .block)
    (hc : a.challenged ≠ some id) :
    s'.proposals.get id = some pr ∨
      s'.proposals.get id = some { pr with status := .voting } ∧ AgreesAt s' id := by
  cases h with
  | block => exact absurd rfl ha
  | failed => exact .inl hpr
  | other => exact .inl hpr
  | call origin c h =>
    cases c with
    | projectGenesis name xs policy slashing bond =>
      obtain ⟨s1, -, -, hs1, -, rfl⟩ := projectGenesis_ok h
      exact .inl ((congrArg (·.get id) (registerAll_frame hs1).proposals).trans hpr)
    | newRelease p version att cid sig =>
      refine .inl ((newRelease_other h ?_).trans hpr)
      rintro rfl
      rw [hf rfl] at hpr
      cases hpr
    | vote id' aye =>
      obtain ⟨who, pr', info, x, -, hpr', -, -, hproj, -, hv⟩ := vote_ok h
      by_cases hid : id = id'
      · subst hid
        obtain rfl : pr = pr' := Option.some.inj (hpr.symm.trans hpr')
        have hagrees := doVote_agreesAt hv hpr rfl hproj
        rw [doVote_proposals hv hpr, withStatus_self hpr, hst]
        cases hmet : meetsQuorums pr.projectId info id (recordVote id who x aye s) with
        | true => exact .inl (congrArg some (by rw [statusAfter, if_pos rfl, ← hst]))
        | false => exact .inr ⟨by simp [statusAfter], hagrees⟩
      · exact .inl ((doVote_get hv id hid).trans hpr)
    | submitCounterAttestation id' rebuilt =>
      obtain ⟨pr', info, y, slashed, hsl⟩ := submitCounterAttestation_slashes h
      refine .inl ?_
      rw [hsl.proposals, StorageMap.get_insert_ne, hpr]
      rintro rfl
      exact hc rfl
    | closeExpired id' =>
      obtain ⟨who, pr', released, balances, -, hpr', hvoting, -, -, rfl⟩ := closeExpired_ok h
      refine .inl ((StorageMap.get_insert_ne _ _ ?_).trans hpr)
      rintro rfl
      rw [hpr] at hpr'
      cases hpr'
      rw [hst] at hvoting
      cases hvoting

/-- The proposal stands through a step that is not against it, while the roles it
needs have stake and its date has not come. -/
theorem Stands.step (hs : Stands id pr info s) (h : Step s a s') (hf : FreshProposal s a)
    (hf' : FreshProject s a) (ho : Unopposed id s a) (hfit : AyesFit s)
    (hst : pr.status = .approved b)
    (hstake : ∀ rq ∈ info.policy.requiredRoles.val, s'.roleStakeOf pr.projectId rq.role ≠ 0)
    (hblock : a = .block → s'.proposals.get id = s.proposals.get id) : Stands id pr info s' := by
  have hsome : (s.projects.get pr.projectId).isSome := by rw [hs.project]; rfl
  have hproj : s'.projects.get pr.projectId = some info :=
    (h.projects_get hf' hsome).trans hs.project
  have hmet : meetsQuorums pr.projectId info id s' = true :=
    meetsQuorums_iff.mpr ⟨(meetsQuorums_iff.mp hs.met).1.mono (h.roleStakeOf_le hf' hsome)
      (h.ayes_le ho hfit), hstake⟩
  refine ⟨?_, hproj, hmet⟩
  by_cases ha : a = .block
  · rw [hblock ha, hs.proposal]
  · rcases h.approved_kept hf hs.proposal hst ha ho.2 with hsame | ⟨hvoting, hagrees⟩
    · exact hsame
    · obtain ⟨e, he⟩ := (hagrees _ info hvoting hproj rfl).mpr hmet
      cases he

-- ---------------------------------------------------------------------------
-- On the date
-- ---------------------------------------------------------------------------

/-- The proposal is enacted, and the log has the entry of block `b` for it. -/
def ReleasedAt (b id : Nat) (pr : Proposal T.AccountId) (s : State T) : Prop :=
  s.proposals.get id = some { pr with status := .enacted } ∧
    ∃ i, s.releaseLog.get (pr.projectId, i) = some (entryOf id pr b)

theorem ReleasedAt.step (hs : ReleasedAt b id pr s) (h : Step s a s') (hf : FreshProposal s a)
    (hlog : LogOk s) (hlt : ReleaseCountsBelowMax s) : ReleasedAt b id pr s' := by
  obtain ⟨hpr, i, hentry⟩ := hs
  exact ⟨(h.sameProposal hf hpr rfl).proposal.trans hpr, i, h.append hlog hlt hentry⟩

theorem ReleaseEntry.Records.eq_entryOf {e : ReleaseEntry} (h : e.Records p pr')
    (hpr : pr' = { pr with status }) (hid : e.proposalId = id) (hb : e.enactedAt = b) :
    e = entryOf id pr b := by
  obtain ⟨-, -, hversion, hcommit, hbinary, hcid, -⟩ := h
  subst hpr
  cases e
  simp_all [entryOf]

theorem Stands.released (hs : Stands id pr info s) (h : Reaches tr s)
    (hmax : s.blockNumber < T.maxBlockNumber) (hf : Along FreshProposal tr)
    (hst : pr.status = .approved (s.blockNumber + 1))
    (hlt : ReleaseCountsBelowMax (nextBlock s)) :
    ReleasedAt (s.blockNumber + 1) id pr (nextBlock s) := by
  have hstep : Step s .block (nextBlock s) := .block hmax
  have hfresh : FreshProposal s .block := by rintro ⟨⟩
  have hlog := (h.append (.single hstep)).logOk
    (along_append.mpr ⟨hf, along_cons.mpr ⟨hfresh, along_nil⟩⟩) hlt
  have henacted : (nextBlock s).proposals.get id = some { pr with status := .enacted } := by
    rcases nextBlock_proposal s id with hsame | ⟨-, pr', hpr', hset⟩
    · -- The slot has been emptied, so the hook has come to the proposal.
      have hagrees := hstep.agrees h.hasProject hfresh (h.agrees hf)
      have hmem := (hagrees.mem_iff (s.blockNumber + 1) id).mpr
        (due_eq_some.mpr ⟨pr, hsame.trans hs.proposal, hst⟩)
      unfold slots pendingAt at hmem
      rw [(nextBlock_frame s).2.2, StorageMap.getD_remove, if_pos rfl] at hmem
      cases hmem
    · cases hset with
      | enacted hpr0 =>
        rw [hs.proposal] at hpr0
        cases hpr0
        exact hpr'
      | revoked hpr0 _ hproj hmet =>
        rw [hs.proposal] at hpr0
        cases hpr0
        rw [hs.project] at hproj
        cases hproj
        rw [hs.met] at hmet
        cases hmet
  obtain ⟨⟨p, i⟩, e, he, rfl⟩ := hlog.surjective id _ henacted rfl
  obtain ⟨pr', hpr', hrec⟩ := hlog.entry p i e he
  rw [henacted] at hpr'
  cases hpr'
  obtain rfl : pr.projectId = p := hrec.project
  rcases hookState_logs s _ (by rwa [← nextBlock_eq]) with hold | hpass
  · exact absurd rfl ((h.logSound hf).not_logged hs.proposal hst hold)
  · exact ⟨henacted, i, he.trans (congrArg some (hrec.eq_entryOf rfl rfl hpass.enactedAt))⟩

theorem Stands.waits (hs : Stands id pr info s) (h : Reaches tr s) (hf : Along FreshProposal tr)
    (hst : pr.status = .approved b) (hb : b ≠ s.blockNumber + 1) :
    (nextBlock s).proposals.get id = s.proposals.get id := by
  rcases nextBlock_proposal s id with hsame | ⟨hmem, -⟩
  · exact hsame
  · have hdue := ((h.agrees hf).mem_iff _ id).mp hmem
    rw [due_of_get hs.proposal, hst] at hdue
    exact absurd (Option.some.inj hdue) hb

/-- While nobody votes nay on it or challenges it and the roles it needs keep some
stake, an approved proposal stands until the block of its date. That block enacts
it and logs it, and the entry stays. -/
theorem approval_punctual (h : Reaches tr s) (hr : Run Step s tr' t) (hmax : BelowMax t)
    (hpr : s.proposals.get id = some pr) (hst : pr.status = .approved b) (hb : s.blockNumber < b)
    (hproj : s.projects.get pr.projectId = some info) (hunopposed : Along (Unopposed id) tr')
    (hstake : ∀ rq ∈ info.policy.requiredRoles.val, t.roleStakeOf pr.projectId rq.role ≠ 0) :
    (t.blockNumber < b → Stands id pr info t) ∧
      (b ≤ t.blockNumber → ReleasedAt b id pr t) := by
  have hreach := h.append hr
  obtain ⟨hf, hfr⟩ := along_append.mp (hreach.freshProposal hmax.proposals).1
  obtain ⟨hf', hfr'⟩ := along_append.mp (hreach.freshProject hmax.projects).1
  refine (hr.induct (I := fun _ m => (m.projects.get pr.projectId).isSome ∧
    (ReleaseCountsBelowMax m → (∀ rq ∈ info.policy.requiredRoles.val,
        m.roleStakeOf pr.projectId rq.role ≠ 0) →
      (m.blockNumber < b → Stands id pr info m) ∧ (b ≤ m.blockNumber → ReleasedAt b id pr m)))
    ((hunopposed.and hfr).and hfr') ?_ ?_).2 hmax.releases hstake
  · refine ⟨by rw [hproj]; rfl, fun _ hstake0 => ⟨fun _ => ?_, fun hpast => by omega⟩⟩
    obtain ⟨info', _, _, _, _, -, -, -, hstood, -⟩ := h.approvedSince hf hf' id pr b hpr hst
    have hnow : StoodIn id pr info' s s := hstood s (by simp)
    obtain rfl : info = info' := Option.some.inj (hproj.symm.trans hnow.project)
    exact hnow.stands (meetsQuorums_iff.mpr ⟨hnow.quorate, hstake0⟩)
  · rintro tr1 m a n hrun hP hstep ⟨⟨ho, hfresh⟩, hfresh'⟩ ⟨hsome, ih⟩
    refine ⟨hstep.projects_isSome hsome, fun hlt hstaken => ?_⟩
    have hltm : ReleaseCountsBelowMax m := fun q => hstep.count_lt (hlt q)
    have hstakem : ∀ rq ∈ info.policy.requiredRoles.val,
        m.roleStakeOf pr.projectId rq.role ≠ 0 := by
      intro rq hrq h0
      have hle := hstep.roleStakeOf_le hfresh' hsome rq.role
      exact hstaken rq hrq (by omega)
    obtain ⟨hstands, hreleased⟩ := ih hltm hstakem
    have hm := h.append hrun
    have hfm : Along FreshProposal (tr ++ tr1) :=
      along_append.mpr ⟨hf, hP.mono fun _ _ hx => hx.1.2⟩
    have hlog := hm.logOk hfm hltm
    have hkeep : b ≤ m.blockNumber → ReleasedAt b id pr n := fun hpast =>
      (hreleased hpast).step hstep hfresh hlog hltm
    rcases hstep.blockNumber with hsame | ⟨rfl, hnext⟩
    · rw [hsame]
      refine ⟨fun hahead => ?_, hkeep⟩
      refine (hstands hahead).step hstep hfresh hfresh' ho hm.ayesFit hst hstaken ?_
      rintro rfl
      cases hstep
      have hsucc := (nextBlock_frame m).2.1
      omega
    · rw [hnext]
      refine ⟨fun hahead => ?_, fun hpast => ?_⟩
      · have hnow := hstands (by omega)
        refine hnow.step hstep hfresh hfresh' ho hm.ayesFit hst hstaken fun _ => ?_
        cases hstep
        exact hnow.waits hm hfm hst (by omega)
      · rcases Nat.lt_or_ge m.blockNumber b with hahead | hpast'
        · obtain rfl : b = m.blockNumber + 1 := by omega
          cases hstep with
          | block hlast => exact (hstands hahead).released hm hlast hfm hst hlt
        · exact hkeep hpast'

theorem approval_punctual_slashed :
    let s := Mock.after [Mock.genesis .buildService (Mock.percent 50) 10 0, Mock.propose 8 1,
      Mock.vote 8 0 true]
    let t := (Mock.further ([Mock.propose 9 2, Mock.challenge 1 3, Mock.vote 9 0 true] ++
      List.replicate 10 .block) s).2
    t.roleStakeOf 0 .buildService < s.roleStakeOf 0 .buildService ∧
      ∃ pr, s.proposals.get 0 = some pr ∧ ReleasedAt 11 0 pr t := by
  intro s t
  obtain ⟨pr, hpr, hfields⟩ := Option.map_eq_some_iff.mp (show (s.proposals.get 0).map
    (fun pr => (pr.status, pr.projectId)) = some (.approved 11, 0) by decide +kernel)
  obtain ⟨hst, hp⟩ := Prod.mk.inj hfields
  obtain ⟨info, hproj, hroles⟩ := Option.map_eq_some_iff.mp (show (s.projects.get 0).map
    (fun info => info.policy.requiredRoles.val.map (·.role)) = some [.buildService] by
      decide +kernel)
  have hmax : BelowMax t := by
    have hall : ProposalIdsBelowMax t ∧ ProjectIdsBelowMax t ∧ ReleaseCountsBelowMax t := by
      decide +kernel
    exact ⟨hall.1, hall.2.1, hall.2.2⟩
  have hstake : ∀ rq ∈ info.policy.requiredRoles.val, t.roleStakeOf pr.projectId rq.role ≠ 0 := by
    intro rq hrq
    have hrole : rq.role = .buildService := by
      simpa [hroles] using List.mem_map_of_mem (f := fun rq : RoleQuorum => rq.role) hrq
    rw [hp, hrole]
    decide +kernel
  have hall := approval_punctual (Mock.reaches _) (Mock.run_further _ s) hmax hpr hst
    (by decide +kernel) (by rw [hp]; exact hproj) (by decide +kernel) hstake
  exact ⟨by decide +kernel, pr, hpr, hall.2 (by decide +kernel)⟩

end Verigov
