import Verigov.Collateral
import Verigov.Exhaustion
import Mathlib.Algebra.Ring.Int.Defs
import Mathlib.Logic.Function.Iterate

/-!
# Slashes over a run

A rejected proposal is a slash of its builder, and there is no other way to be
slashed. So the stake of a build service is its genesis stake with the slash
applied once for each rejected proposal it built, in whatever order things
happened, and what the pallet has burned is what the stakes have lost. The count
goes wrong when a rejected proposal is overwritten.
-/

namespace Verigov

open State Transition

variable {T : Config} {s s' : State T} {id : Nat}

/-- What a negligence slash leaves of a stake. -/
def ProjectInfo.negligence (info : ProjectInfo) (stake : Nat) : Nat :=
  stake - info.slashing.sigmaNeg.mulFloor stake

def State.rejections (s : State T) (p : Nat) (a : T.AccountId) : Nat :=
  s.proposals.sum fun _ pr =>
    if pr.projectId = p ∧ pr.attestation.builder = a ∧ pr.status = .rejected then 1 else 0

def registersAs (p : Nat) (a : T.AccountId) (x : State T × Action T) :
    Option (StakeholderInit T.AccountId) :=
  match x.2 with
  | .call _ (.projectGenesis _ xs _ _ _) =>
    if x.1.nextProjectId = p then xs.val.find? (·.account = a) else none
  | _ => none

def genesisOf (tr : Trace T) (p : Nat) (a : T.AccountId) : Option (StakeholderInit T.AccountId) :=
  tr.findSome? (registersAs p a)

theorem genesisOf_append {p : Nat} (h : genesisOf tr p a = some x) (tr' : Trace T) :
    genesisOf (tr ++ tr') p a = some x := by
  unfold genesisOf at h ⊢
  rw [List.findSome?_append, h, Option.some_or]

theorem genesisOf_snoc (tr : Trace T) (m : State T) (act : Action T) (p : Nat) (a : T.AccountId) :
    genesisOf (tr ++ [(m, act)]) p a = (genesisOf tr p a).or (registersAs p a (m, act)) := by
  simp only [genesisOf, List.findSome?_append, List.findSome?_cons, List.findSome?_nil]
  congr 1
  split <;> simp_all

theorem registersAs_eq_none (h : act.isProjectGenesis = false) (p : Nat) (a : T.AccountId) :
    registersAs p a (s, act) = none := by
  cases act with
  | call origin c =>
    cases c with
    | projectGenesis => cases h
    | _ => rfl
  | _ => rfl

theorem genesisOf_same (tr : Trace T) (h : act.isProjectGenesis = false) (p : Nat)
    (a : T.AccountId) : genesisOf (tr ++ [(s, act)]) p a = genesisOf tr p a := by
  rw [genesisOf_snoc, registersAs_eq_none h, Option.or_none]

theorem iterate_negligence_le (info : ProjectInfo) (k n : Nat) : info.negligence^[k] n ≤ n := by
  induction k with
  | zero => exact Nat.le_refl n
  | succ k ih =>
    rw [Function.iterate_succ_apply']
    exact Nat.le_trans (Nat.sub_le _ _) ih

-- ---------------------------------------------------------------------------
-- What a step does to the rejections
-- ---------------------------------------------------------------------------

theorem Slashes.rejections (h : Slashes s id s' pr info y slashed) (p : Nat) (a : T.AccountId) :
    s'.rejections p a =
      s.rejections p a + if pr.projectId = p ∧ pr.attestation.builder = a then 1 else 0 := by
  have hsum := s.proposals.sum_insert (fun _ (pr : Proposal T.AccountId) =>
    if pr.projectId = p ∧ pr.attestation.builder = a ∧ pr.status = .rejected then 1 else 0) id
    { pr with status := .rejected }
  have hne : pr.status ≠ .rejected := by
    intro heq
    have ho := h.isOpen
    rw [heq] at ho
    cases ho
  rw [h.proposal, ← h.proposals] at hsum
  simpa [hne, State.rejections] using hsum

theorem Step.rejections (h : Step s act s') (hf : FreshProposal s act)
    (hc : act.challenged = none) (p : Nat) (a : T.AccountId) :
    s'.rejections p a = s.rejections p a := by
  apply StorageMap.sum_congr_get
  intro id
  rcases h.proposal id with hfiled | ⟨h0, h1⟩ | ⟨pr, st, h0, h1, hm⟩
  · obtain ⟨rfl, -, -, -, -, -, -, -, hor, hput⟩ := hfiled
    rw [hput, hf rfl]
    rcases hor with rfl | ⟨e, rfl⟩ <;> simp
  · rw [h0, h1]
  · rw [h0, h1]
    cases hm with
    | stay => rfl
    | reject ha => simp [ha, Action.challenged] at hc
    | approve _ hst => simp [hst]
    | revoke hst => simp [hst]
    | expire _ hst => simp [hst]
    | enact _ hst => simp [hst]

theorem rejections_of_unused (hs : HasProject s) (hp : s.projects.get p = none)
    (a : T.AccountId) : s.rejections p a = 0 := by
  apply StorageMap.sum_eq_zero
  intro id pr hpr
  rw [if_neg]
  rintro ⟨rfl, -, -⟩
  have hsome := hs id pr hpr
  rw [hp] at hsome
  cases hsome

theorem rejections_of_role (hs : PartiesRegistered s) {a : T.AccountId}
    (hx : s.stakeholders.get (p, a) = some x) (hr : x.role ≠ .buildService) :
    s.rejections p a = 0 := by
  apply StorageMap.sum_eq_zero
  intro id pr hpr
  rw [if_neg]
  rintro ⟨rfl, rfl, -⟩
  obtain ⟨y, hy, hrole⟩ := (hs id pr hpr).2
  rw [hx] at hy
  cases hy
  exact hr hrole

-- ---------------------------------------------------------------------------
-- The registry, from genesis on
-- ---------------------------------------------------------------------------

theorem registerAll_find {xs : List (StakeholderInit T.AccountId)}
    (h : xs.foldlM (registerStakeholder p) s = .ok s') (q : Nat) (a : T.AccountId) :
    s'.stakeholders.get (q, a) = (s.stakeholders.get (q, a)).or
      (if p = q then (xs.find? (·.account = a)).map fun x => ⟨x.role, x.stake⟩ else none) := by
  induction xs generalizing s with
  | nil =>
    simp only [List.foldlM_nil, pure_eq_ok] at h
    simp [h]
  | cons x xs ih =>
    simp only [List.foldlM_cons, bind_eq_ok] at h
    obtain ⟨m, hx, hxs⟩ := h
    obtain ⟨balances, hnone, -, rfl⟩ := registerStakeholder_ok hx
    rw [ih hxs]
    simp only [depositEvent, StorageMap.get_insert]
    by_cases hk : (q, a) = (p, x.account)
    · cases hk
      simp [hnone]
    · rw [if_neg hk]
      by_cases hq : p = q
      · have ha : x.account ≠ a := fun he => hk (by rw [hq, he])
        simp [ha]
      · simp [hq]

/-- Where the registry stands: the genesis entries, slashed. -/
structure Accounted (tr : Trace T) (s : State T) : Prop where
  entry : ∀ p a x, genesisOf tr p a = some x → ∃ info, s.projects.get p = some info ∧
    s.stakeholders.get (p, a) = some ⟨x.role, info.negligence^[s.rejections p a] x.stake⟩
  unknown : ∀ p a, genesisOf tr p a = none → s.stakeholders.get (p, a) = none

theorem Accounted.same (h : Accounted tr s) (hst : Step s act s') (hf : FreshProposal s act)
    (hf' : FreshProject s act) (hc : act.challenged = none) (hg : act.isProjectGenesis = false)
    (hsame : s'.stakeholders = s.stakeholders) : Accounted (tr ++ [(s, act)]) s' := by
  refine ⟨fun p a x hx => ?_, fun p a hn => ?_⟩
  · rw [genesisOf_same tr hg] at hx
    obtain ⟨info, hproj, hget⟩ := h.entry p a x hx
    refine ⟨info, ?_, ?_⟩
    · rw [hst.projects_get hf' (by simp [hproj]), hproj]
    · rw [hsame, hst.rejections hf hc, hget]
  · rw [genesisOf_same tr hg] at hn
    rw [hsame, h.unknown p a hn]

theorem Accounted.genesis (h : Accounted tr s) (hp : HasProject s)
    (hcall : projectGenesis origin name xs policy slashing bond s = .ok s')
    (hnew : s.projects.get s.nextProjectId = none) :
    Accounted (tr ++ [(s, .call origin (.projectGenesis name xs policy slashing bond))]) s' := by
  have hst : Step s _ s' := .call origin (.projectGenesis name xs policy slashing bond) hcall
  have hrej := hst.rejections (fun hn => by cases hn) rfl
  obtain ⟨s1, -, -, hs1, -, rfl⟩ := projectGenesis_ok hcall
  have hget := registerAll_find hs1
  refine ⟨fun p a x hx => ?_, fun p a hn => ?_⟩
  · rw [genesisOf_snoc] at hx
    rw [hrej]
    cases hold : genesisOf tr p a with
    | some x0 =>
      rw [hold, Option.some_or, Option.some.injEq] at hx
      subst hx
      obtain ⟨info, hproj, hreg⟩ := h.entry p a x0 hold
      refine ⟨info, ?_, ?_⟩
      · rw [hst.projects_get (fun _ => hnew) (by simp [hproj]), hproj]
      · exact (hget p a).trans (by rw [hreg, Option.some_or])
    | none =>
      simp only [hold, Option.none_or, registersAs, Option.ite_none_right_eq_some] at hx
      obtain ⟨rfl, hx⟩ := hx
      refine ⟨_, StorageMap.get_insert_self .., (hget _ a).trans ?_⟩
      rw [h.unknown _ a hold, Option.none_or, if_pos rfl, hx, rejections_of_unused hp hnew]
      rfl
  · rw [genesisOf_snoc, Option.or_eq_none_iff] at hn
    refine (hget p a).trans ?_
    have hx := hn.2
    rw [h.unknown p a hn.1, Option.none_or]
    simp only [registersAs] at hx
    split at hx
    · rename_i hq
      rw [if_pos hq, hx]
      rfl
    · rename_i hq
      rw [if_neg hq]

theorem Accounted.slash (h : Accounted tr s) (hst : Step s act s') (hc : act.challenged = some id)
    (hsl : Slashes s id s' pr info y (info.slashing.sigmaNeg.mulFloor y.stake)) :
    Accounted (tr ++ [(s, act)]) s' := by
  obtain ⟨_, _, rfl⟩ := Action.challenged_eq_some hc
  refine ⟨fun p a x hx => ?_, fun p a hn => ?_⟩
  · rw [genesisOf_same tr rfl] at hx
    obtain ⟨info', hproj, hget⟩ := h.entry p a x hx
    refine ⟨info', ?_, ?_⟩
    · rw [hst.projects_get (fun hn => by cases hn) (by simp [hproj]), hproj]
    · rw [hsl.stakeholders, hsl.rejections]
      by_cases hk : (p, a) = (pr.projectId, pr.attestation.builder)
      · cases hk
        rw [hsl.project] at hproj
        cases hproj
        rw [hsl.builder] at hget
        cases hget
        rw [StorageMap.get_insert_self, if_pos ⟨rfl, rfl⟩, Function.iterate_succ_apply']
        rfl
      · have hne : ¬(pr.projectId = p ∧ pr.attestation.builder = a) := by
          rintro ⟨rfl, rfl⟩
          exact hk rfl
        rw [StorageMap.get_insert_ne _ _ hk, if_neg hne, hget, Nat.add_zero]
  · rw [genesisOf_same tr rfl] at hn
    have hnone := h.unknown p a hn
    rw [hsl.stakeholders, StorageMap.get_insert_ne]
    · exact hnone
    · intro hk
      rw [hk, hsl.builder] at hnone
      cases hnone

theorem Slashes.slashed_eq (hburn : T.currency.BurnExact) (hs : Escrowed s)
    (h : Slashes s id s' pr info y slashed) :
    slashed = info.slashing.sigmaNeg.mulFloor y.stake := by
  obtain ⟨b, hb⟩ := h.burned
  exact (hs.burn hburn h.builder hb).1

-- ---------------------------------------------------------------------------
-- The issuance
-- ---------------------------------------------------------------------------

/-- What the step takes from the total issuance; another pallet's is not counted. -/
def burnedBy (x : State T × Action T × State T) : Int :=
  match x.2.1 with
  | .other _ => 0
  | _ => T.currency.totalIssuance x.1.balances - T.currency.totalIssuance x.2.2.balances

def genesisStake (tr : Trace T) (p : Nat) (a : T.AccountId) : Nat :=
  (genesisOf tr p a).elim 0 (·.stake)

def State.lost (s : State T) (tr : Trace T) : Nat :=
  s.stakeholders.sum fun k x => genesisStake tr k.1 k.2 - x.stake

theorem issuance_bondFree (h : T.currency.IssuanceExact) : BondFree T.currency.totalIssuance where
  hold _ _ _ _ := h.hold _ _ _ _ _
  release _ _ _ _ _ := h.release _ _ _ _ _ _

theorem registerAll_issuance (hiss : T.currency.IssuanceExact)
    {xs : List (StakeholderInit T.AccountId)}
    (h : xs.foldlM (registerStakeholder p) s = .ok s') :
    T.currency.totalIssuance s'.balances = T.currency.totalIssuance s.balances := by
  refine foldlM_induct (I := fun m => T.currency.totalIssuance m.balances =
    T.currency.totalIssuance s.balances) h rfl ?_
  intro x m m' hx hm
  obtain ⟨balances, -, hok, rfl⟩ := registerStakeholder_ok hx
  exact (hiss.hold _ _ _ _ _ hok).trans hm

theorem Accounted.stake_le (h : Accounted tr s) {a : T.AccountId}
    (hy : s.stakeholders.get (p, a) = some y) : y.stake ≤ genesisStake tr p a := by
  cases hg : genesisOf tr p a with
  | none =>
    rw [h.unknown p a hg] at hy
    cases hy
  | some x =>
    obtain ⟨info, -, hget⟩ := h.entry p a x hg
    rw [hget] at hy
    cases hy
    simp only [genesisStake, hg]
    exact iterate_negligence_le info _ x.stake

theorem lost_same (tr : Trace T) (hg : act.isProjectGenesis = false)
    (hst : s'.stakeholders = s.stakeholders) : s'.lost (tr ++ [(s, act)]) = s.lost tr := by
  unfold State.lost genesisStake
  simp only [genesisOf_same tr hg, hst]

theorem Accounted.lost_genesis (h : Accounted tr s) (act : Action T)
    {xs : List (StakeholderInit T.AccountId)}
    (hact : ∀ p a, registersAs p a (s, act) =
      if s.nextProjectId = p then xs.find? (·.account = a) else none)
    (hs1 : xs.foldlM (registerStakeholder s.nextProjectId) s = .ok s1)
    (hst : s'.stakeholders = s1.stakeholders) : s'.lost (tr ++ [(s, act)]) = s.lost tr := by
  apply StorageMap.sum_congr_get
  rintro ⟨p, a⟩
  rw [hst, registerAll_find hs1]
  simp only [genesisStake, genesisOf_snoc, hact]
  cases hg : genesisOf tr p a with
  | some x =>
    obtain ⟨info, -, hget⟩ := h.entry p a x hg
    simp [hget]
  | none =>
    rw [h.unknown p a hg]
    by_cases hp : s.nextProjectId = p
    · cases hx : xs.find? (·.account = a) <;> simp [hp]
    · simp [hp]

theorem Accounted.lost_slash (h : Accounted tr s) (hg : act.isProjectGenesis = false)
    (hsl : Slashes s id s' pr info y slashed) (hle : slashed ≤ y.stake) :
    s'.lost (tr ++ [(s, act)]) = s.lost tr + slashed := by
  have hsum := s.stakeholders.sum_insert (fun k x => genesisStake tr k.1 k.2 - x.stake)
    (pr.projectId, pr.attestation.builder) { y with stake := y.stake - slashed }
  have hy := h.stake_le hsl.builder
  rw [hsl.builder, ← hsl.stakeholders] at hsum
  simp only [Option.elim_some] at hsum
  unfold State.lost
  simp only [genesisStake, genesisOf_same tr hg] at hsum hy ⊢
  omega

theorem Accounted.step (hburn : T.currency.BurnExact)
    (hiss : T.currency.IssuanceExact) (h : Accounted tr s) (hst : Step s act s')
    (hf : FreshProposal s act) (hf' : FreshProject s act) (hp : HasProject s)
    (hs : Escrowed s) :
    Accounted (tr ++ [(s, act)]) s' ∧
      burnedBy (s, act, s') + s.lost tr = s'.lost (tr ++ [(s, act)]) := by
  rcases hst.funds (issuance_bondFree hiss) with ⟨hc, hg, hsame, hkept⟩ |
    ⟨origin, name, xs, policy, slashing, bond, s1, rfl, hs1, hreg, hbal⟩ |
    ⟨id, pr, info, y, slashed, burned, hc, hsl, hb, hkept⟩ | ⟨balances, rfl, hs', -⟩
  · refine ⟨h.same hst hf hf' hc hg hsame, ?_⟩
    rw [lost_same tr hg hsame]
    unfold burnedBy
    split
    · exact Int.zero_add _
    · simp [hkept]
  · cases hst with
    | call _ _ hcall =>
      refine ⟨h.genesis hp hcall (hf' rfl), ?_⟩
      rw [h.lost_genesis _ (fun p a => rfl) hs1 hreg]
      simp [burnedBy, hbal, registerAll_issuance hiss hs1]
  · have hm := hsl.slashed_eq hburn hs
    subst hm
    refine ⟨h.slash hst hc hsl, ?_⟩
    have hg : act.isProjectGenesis = false := by
      obtain ⟨_, _, rfl⟩ := Action.challenged_eq_some hc
      rfl
    have hloss := h.lost_slash hg hsl (info.slashing.sigmaNeg.mulFloor_le y.stake)
    have hout := hiss.burn _ _ _ _ _ _ hb
    obtain ⟨_, _, rfl⟩ := Action.challenged_eq_some hc
    simp only [burnedBy, hkept]
    omega
  · have hsame : s'.stakeholders = s.stakeholders := by rw [hs']
    refine ⟨h.same hst hf hf' rfl rfl hsame, ?_⟩
    rw [lost_same tr rfl hsame]
    exact Int.zero_add _

theorem Reaches.accounted (hhold : T.currency.HoldExact) (hburn : T.currency.BurnExact)
    (hrel : T.currency.ReleaseKeepsReasons) (hiss : T.currency.IssuanceExact) (h : Reaches tr s)
    (hf : Along FreshProposal tr) (hf' : Along FreshProject tr) :
    Accounted tr s ∧ ((stepsOf tr s).map burnedBy).sum = s.lost tr := by
  refine h.induct (I := fun tr t => Accounted tr t ∧
    ((stepsOf tr t).map burnedBy).sum = t.lost tr) (hf.and hf') ?_ ?_
  · rintro _ ⟨n, b, rfl, -⟩
    refine ⟨⟨fun p a x hx => ?_, fun p a _ => StorageMap.get_empty _⟩, rfl⟩
    cases hx
  · rintro tr m act t hreach - hst ⟨hfresh, hfresh'⟩ ⟨hm, hsum⟩
    obtain ⟨ht, hburned⟩ := hm.step hburn hiss hst hfresh hfresh' hreach.hasProject
      (hreach.escrowed hhold hburn hrel)
    refine ⟨ht, ?_⟩
    simp only [stepsOf_snoc, List.map_append, List.sum_append, List.map_cons, List.map_nil,
      List.sum_cons, List.sum_nil, hsum]
    omega

/-- The stake of a build service is its genesis stake with the slash applied once per
rejected proposal it built, every other stake is as genesis has it, and the pallet
has burned what the stakes have lost. -/
theorem stake_after_slashes (hhold : T.currency.HoldExact) (hburn : T.currency.BurnExact)
    (hrel : T.currency.ReleaseKeepsReasons) (hiss : T.currency.IssuanceExact) (h : Reaches tr s)
    (hf : Along FreshProposal tr) (hf' : Along FreshProject tr) :
    (∀ p a x, genesisOf tr p a = some x → ∃ info y, s.projects.get p = some info ∧
      s.stakeholders.get (p, a) = some y ∧ y.role = x.role ∧
      y.stake = if x.role = .buildService then info.negligence^[s.rejections p a] x.stake
        else x.stake) ∧
    (∀ p a, (s.stakeholders.get (p, a)).isSome → (genesisOf tr p a).isSome) ∧
    ((stepsOf tr s).map burnedBy).sum =
      (s.stakeholders.sum fun k x => genesisStake tr k.1 k.2 - x.stake : Nat) := by
  obtain ⟨hacc, hsum⟩ := h.accounted hhold hburn hrel hiss hf hf'
  refine ⟨fun p a x hx => ?_, fun p a hsome => ?_, hsum⟩
  · obtain ⟨info, hproj, hget⟩ := hacc.entry p a x hx
    refine ⟨info, _, hproj, hget, rfl, ?_⟩
    split
    · rfl
    · rename_i hrole
      rw [rejections_of_role h.partiesRegistered hget hrole]
      rfl
  · by_contra hn
    rw [hacc.unknown p a (by simpa using hn)] at hsome
    cases hsome

theorem stake_after_slashes_twice :
    let as := [Mock.genesis .coreDeveloper (Mock.percent 50) 10 3, Mock.propose 8 1,
      Mock.propose 8 2, Mock.challenge 0 5, Mock.challenge 1 5]
    let s := Mock.after as
    s.rejections 0 8 = 2 ∧ s.stakeholders.get (0, 8) = some ⟨.buildService, 250⟩ ∧
      ((stepsOf (Mock.trace as) s).map burnedBy).sum = 750 := by
  intro as s
  have h := stake_after_slashes Ledger.holdExact Ledger.burnExact Ledger.releaseKeepsReasons
    Ledger.issuanceExact (Mock.reaches as) (by decide +kernel) (by decide +kernel)
  exact ⟨by decide +kernel, by decide +kernel, h.2.2.trans (by decide +kernel)⟩

-- ---------------------------------------------------------------------------
-- A rejection that is overwritten
-- ---------------------------------------------------------------------------

theorem unrejected (h : Run Step s tr s') (hc : Along (fun _ a => a.challenged = none) tr)
    (hs : ∀ id pr, s.proposals.get id = some pr → pr.status ≠ .rejected) :
    ∀ id pr, s'.proposals.get id = some pr → pr.status ≠ .rejected := by
  refine h.invariant (I := fun m => ∀ id pr, m.proposals.get id = some pr →
    pr.status ≠ .rejected) hc hs ?_
  intro m act t hst hnone hm id pr hpr hrej
  exact hm id pr (hst.rejected hnone hpr hrej) hrej

namespace Mock

variable {s s' : State Test} {info : ProjectInfo}

theorem Filing.challenge (h : Filing u32Max info s) (hfunds : Solvent bal)
    (haudit : (s.stakeholders.get (0, (6 : Nat))).isSome) :
    ∃ t, perform (Mock.challenge u32Max 2) (Mock.filed info bal s) = some t ∧
      LastFiled info t := by
  have hlast := h.lastFiled hfunds
  have hget : (Mock.filed info bal s).proposals.get u32Max = some (release info s) :=
    h.next ▸ filed_get info bal s
  have hself : (6 : Nat) ≠ (release info s).attestation.builder := by
    simp [release, newProposal, attestation]
  have hdiff : Mock.h 2 ≠ (release info s).attestation.outputBinaryHash := by
    show Mock.h 2 ≠ Mock.h 1
    decide
  refine ⟨_, congrArg Except.toOption (submitCounterAttestation_of (T := Test) hget rfl
    hlast.project haudit hself hdiff h.builder rfl rfl), ?_⟩
  exact {
    roles := hlast.roles
    bond := hlast.bond
    project := hlast.project
    first := (StorageMap.get_insert_ne _ _ (by simp [release, newProposal, attestation])).trans
      hlast.first
    builder := ⟨_, StorageMap.get_insert_self ..⟩
    stake := (StorageMap.getD_insert ..).trans ((if_neg (by simp)).trans hlast.stake)
    next := hlast.next
    tally := hlast.tally
    vote := hlast.vote
    funds := Nat.lt_of_lt_of_le (Nat.lt_of_lt_of_eq hfunds (Ledger.freeOf_burnHeld ..).symm)
      (Ledger.freeOf_le_release ..) }

theorem rejections_filed (info : ProjectInfo) (bal : Test.currency.Ledger)
    (hpr : s.proposals.get s.nextProposalId = some pr) (hst : pr.status = .rejected)
    (hp : pr.projectId = p) (ha : pr.attestation.builder = a) :
    (filed info bal s).rejections p a + 1 = s.rejections p a := by
  have hsum := s.proposals.sum_insert (fun _ (pr : Proposal Nat) =>
    if pr.projectId = p ∧ pr.attestation.builder = a ∧ pr.status = .rejected then 1 else 0)
    s.nextProposalId (release info s)
  have hnew : (release info s).status ≠ .rejected := by simp [release, newProposal]
  rw [hpr] at hsum
  simp only [Option.elim_some, hp, ha, hst, hnew, and_self, and_false, if_true, if_false,
    Nat.add_zero] at hsum
  exact hsum

theorem rejections_of_unchallenged (h : exec as start = some (tr, s))
    (hc : ∀ a ∈ as, a.challenged = none) (p a : Nat) : s.rejections p a = 0 := by
  apply StorageMap.sum_eq_zero
  intro id pr hpr
  have hne := unrejected (exec_run h) (exec_along h hc) (by simp [start]) id pr hpr
  simp [hne]

theorem Filing.slashes (h : Filing u32Max info s) (bal : Test.currency.Ledger)
    (hperform : perform (Mock.challenge u32Max 2) (Mock.filed info bal s) = some s')
    (hs : Escrowed (Mock.filed info bal s)) :
    Slashes (Mock.filed info bal s) u32Max s' (release info s) info ⟨.buildService, 1000⟩
      (info.slashing.sigmaNeg.mulFloor 1000) := by
  have hget : (Mock.filed info bal s).proposals.get u32Max = some (release info s) :=
    h.next ▸ filed_get info bal s
  cases perform_step hperform with
  | call origin c hcall =>
    obtain ⟨pr, info', y, slashed, hsl⟩ := submitCounterAttestation_slashes hcall
    have hpr := hsl.proposal
    rw [hget] at hpr
    cases hpr
    have hinfo : some info = some info' := h.project.symm.trans hsl.project
    cases hinfo
    have hy : some ⟨.buildService, 1000⟩ = some y := h.builder.symm.trans hsl.builder
    cases hy
    have hm := hsl.slashed_eq Ledger.burnExact hs
    subst hm
    exact hsl

end Mock

/-- A rejected proposal under the last id is overwritten by the next release: the
builder has been slashed, and no rejected proposal tells of it. -/
theorem slash_without_rejection :
    ∃ tr s, exec ([Mock.genesis .coreDeveloper (Mock.percent 50) 2 0] ++
        List.replicate u32Max (Mock.propose 8 1) ++
        [Mock.propose 8 1, Mock.challenge u32Max 2, Mock.propose 8 1]) Mock.start =
          some (tr, s) ∧
      Reaches tr s ∧ genesisOf tr 0 8 = some ⟨8, .buildService, 1000⟩ ∧
      s.stakeholders.get (0, 8) = some ⟨.buildService, 500⟩ ∧ s.rejections 0 8 = 0 ∧
      ∀ info : ProjectInfo, info.negligence^[s.rejections 0 8] 1000 = 1000 := by
  obtain ⟨info, hgenesis⟩ := Mock.filing_genesis
  obtain ⟨tr, s, h1, hs, hframe⟩ := hgenesis.run
  obtain ⟨bal, hfunds, hfile⟩ := hs.propose
  obtain ⟨t, hchallenge, ht⟩ := hs.challenge hfunds (by rw [hframe.stakeholders]; decide +kernel)
  obtain ⟨bal', hagain⟩ := ht.propose
  have h2 : exec [Mock.propose 8 1] s = some ([(s, Mock.propose 8 1)], Mock.filed info bal s) := by
    simp [exec, hfile]
  have h3 : exec [Mock.propose 8 1, Mock.challenge u32Max 2, Mock.propose 8 1] s = some
      ([(s, Mock.propose 8 1), (Mock.filed info bal s, Mock.challenge u32Max 2),
        (t, Mock.propose 8 1)], Mock.filed info bal' t) := by
    simp [exec, hfile, hchallenge, hagain]
  have hexec2 := exec_append (exec_append (Mock.exec_after _) h1) h2
  have hexec3 := exec_append (exec_append (Mock.exec_after _) h1) h3
  have hreach : Reaches _ (Mock.filed info bal s) := ⟨_, Mock.init_start, exec_run hexec2⟩
  -- Up to the challenge nothing has been rejected.
  have hzero : (Mock.filed info bal s).rejections 0 8 = 0 := by
    refine Mock.rejections_of_unchallenged hexec2 (fun a ha => ?_) 0 8
    simp only [List.mem_append, List.mem_singleton, List.mem_replicate] at ha
    rcases ha with (rfl | ⟨-, rfl⟩) | rfl <;> rfl
  have hsl := hs.slashes bal hchallenge
    (hreach.escrowed Ledger.holdExact Ledger.burnExact Ledger.releaseKeepsReasons)
  have hone : t.rejections 0 8 = 1 := by
    rw [hsl.rejections, hzero]
    rfl
  have hrejected : t.proposals.get t.nextProposalId =
      some { Mock.release info s with status := .rejected } := by
    rw [ht.next, hsl.proposals]
    exact StorageMap.get_insert_self ..
  have hsigma : info.slashing.sigmaNeg = Mock.percent 50 := by
    have hmap : ((Mock.after [Mock.genesis .coreDeveloper (Mock.percent 50) 2 0]).projects.get
        0).map (·.slashing.sigmaNeg) = some (Mock.percent 50) := by decide +kernel
    rw [hgenesis.project] at hmap
    exact Option.some.inj hmap
  have hnone : (Mock.filed info bal' t).rejections 0 8 = 0 := by
    have hcount : (Mock.filed info bal' t).rejections 0 8 + 1 = t.rejections 0 8 :=
      Mock.rejections_filed info bal' hrejected rfl rfl rfl
    omega
  refine ⟨_, _, hexec3, ⟨_, Mock.init_start, exec_run hexec3⟩, ?_, ?_, hnone, fun info' => ?_⟩
  · have hfirst : genesisOf (Mock.trace [Mock.genesis .coreDeveloper (Mock.percent 50) 2 0]) 0 8 =
        some ⟨8, .buildService, 1000⟩ := by decide +kernel
    exact genesisOf_append (genesisOf_append hfirst _) _
  · have hget : t.stakeholders.get (0, 8) =
        some ⟨.buildService, 1000 - info.slashing.sigmaNeg.mulFloor 1000⟩ := by
      rw [hsl.stakeholders]
      exact StorageMap.get_insert_self ..
    rw [hsigma] at hget
    exact hget
  · rw [hnone]
    rfl

end Verigov
