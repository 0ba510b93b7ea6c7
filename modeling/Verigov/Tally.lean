import Verigov.Registry

/-!
# Tallies under slashing

A tally is kept vote by vote, each at the stake the voter has at the time, and a
changed vote moves the stake of now from one side to the other. So the two sides
together hold every voter's stake at the first vote, and each side at least the
present stakes of those who are on it. What a side holds beyond that is the
residue of slashes. `TallyOk` is this, together with the room that is left for
those who have not voted yet.
-/

namespace Verigov

open State Transition

variable {T : Config} {s s' : State T} {id : Nat}

-- ---------------------------------------------------------------------------
-- First votes
-- ---------------------------------------------------------------------------

def castFor (id : Nat) (who : T.AccountId) (x : State T × Action T) : Option (Cast T) :=
  (castOf x.1 x.2).filter fun c => c.proposalId = id ∧ c.who = who

def firstCast (tr : Trace T) (id : Nat) (who : T.AccountId) : Option (Cast T) :=
  tr.findSome? (castFor id who)

def firstStake (tr : Trace T) (id : Nat) (who : T.AccountId) : Nat :=
  (firstCast tr id who).elim 0 (·.voter.stake)

theorem firstCast_snoc (tr : Trace T) (m : State T) (a : Action T) (id : Nat)
    (who : T.AccountId) :
    firstCast (tr ++ [(m, a)]) id who = (firstCast tr id who).or (castFor id who (m, a)) := by
  simp [firstCast, List.findSome?_append]

theorem castFor_self (h : castOf s a = some c) : castFor c.proposalId c.who (s, a) = some c := by
  simp [castFor, h, Option.filter]

theorem castFor_eq_none (h : ∀ c, castOf s a = some c → ¬(c.proposalId = id ∧ c.who = who)) :
    castFor id who (s, a) = none := by
  simpa [castFor] using h

theorem castFor_other (h : castOf s a = some c) (hne : who ≠ c.who) :
    castFor c.proposalId who (s, a) = none := by
  simp [castFor, h, Option.filter, hne.symm]

/-- An account has a vote in storage iff it cast one in the run. -/
theorem Reaches.voted (h : Reaches tr s) (id : Nat) (who : T.AccountId) :
    (firstCast tr id who).isSome = (s.votes.get (id, who)).isSome := by
  obtain ⟨s0, ⟨n, b, rfl, -⟩, hr⟩ := h
  refine hr.induct (P := fun _ _ => True) (I := fun tr t => (firstCast tr id who).isSome =
    (t.votes.get (id, who)).isSome) (fun _ _ => trivial) (by simp [firstCast]) ?_
  intro tr m a t _ _ hst _ ih
  rw [firstCast_snoc, Option.isSome_or, ih]
  rcases hst.ballotOn id with ⟨c, hc, hdone, rfl⟩ | ⟨hother, hvotes, -⟩
  · by_cases hk : who = c.who
    · subst hk
      simp [castFor_self hc, hdone.votes]
    · rw [castFor_other hc hk, hdone.votes_other hk]
      simp
  · rw [castFor_eq_none fun c hc hk => hother c hc hk.1, hvotes]
    simp

-- ---------------------------------------------------------------------------
-- One vote
-- ---------------------------------------------------------------------------

/-- None of the additions and subtractions of `RoleTally.record` is clipped. -/
structure RoleTally.NoClip (t : RoleTally) (top : Nat) (prev : Option Bool) (stake : Nat)
    (aye : Bool) : Prop where
  sub_ayes : prev = some true → stake ≤ t.ayes
  sub_nays : prev = some false → stake ≤ t.nays
  add_ayes : aye = true → (if prev = some true then t.ayes - stake else t.ayes) + stake ≤ top
  add_nays : aye = false → (if prev = some false then t.nays - stake else t.nays) + stake ≤ top

theorem RoleTally.NoClip.record {t : RoleTally} (h : t.NoClip top prev stake aye) :
    (t.record top prev stake aye).ayes + (if prev = some true then stake else 0) =
        t.ayes + (if some aye = some true then stake else 0) ∧
      (t.record top prev stake aye).nays + (if prev = some false then stake else 0) =
        t.nays + (if some aye = some false then stake else 0) := by
  obtain ⟨h1, h2, h3, h4⟩ := h
  rcases prev with _ | _ | _ <;> cases aye <;> simp_all [RoleTally.record, saturatingAdd_eq]

theorem RoleTally.NoClip.record_total {t : RoleTally} (h : t.NoClip top prev stake aye) :
    (t.record top prev stake aye).ayes + (t.record top prev stake aye).nays =
      t.ayes + t.nays + if prev = none then stake else 0 := by
  obtain ⟨h1, h2⟩ := h.record
  rcases prev with _ | _ | _ <;> cases aye <;> simp at h1 h2 ⊢ <;> omega

/-- The present stake of role `r` in project `p`, over the accounts whose vote on
proposal `id` is `v`. -/
def State.voteStake (s : State T) (p id : Nat) (r : Role) (v : Option Bool) : Nat :=
  s.roleSum p r fun a x => if s.votes.get (id, a) = v then x.stake else 0

theorem Cast.Done.voteStake {c : Cast T} (h : c.Done s s') (r : Role) (v : Option Bool) :
    s'.voteStake c.projectId c.proposalId r v +
        (if c.voter.role = r then
          if s.votes.get (c.proposalId, c.who) = v then c.voter.stake else 0 else 0) =
      s.voteStake c.projectId c.proposalId r v +
        (if c.voter.role = r then if some c.aye = v then c.voter.stake else 0 else 0) := by
  have hx : s.stakeholders.get (c.projectId, c.who) = some c.voter := h.voter
  have hsum := roleSum_except (r := r)
    (fun a x => if s'.votes.get (c.proposalId, a) = v then x.stake else 0)
    (fun a x => if s.votes.get (c.proposalId, a) = v then x.stake else 0) hx (by
      intro a x ha
      rw [h.votes_other ha])
  rw [h.votes, StorageMap.get_insert_self] at hsum
  unfold State.voteStake
  rw [roleSum_of_stakeholders h.stakeholders, h.votes]
  exact hsum

def Cast.NoClip (c : Cast T) (s : State T) : Prop :=
  (s.tallyOf c.proposalId c.voter.role).NoClip T.maxBalance (s.votes.get (c.proposalId, c.who))
    c.voter.stake c.aye

theorem Cast.Done.ayes {c : Cast T} (h : c.Done s s') (hclip : c.NoClip s) (r : Role) :
    (s'.tallyOf c.proposalId r).ayes + s.voteStake c.projectId c.proposalId r (some true) =
      (s.tallyOf c.proposalId r).ayes + s'.voteStake c.projectId c.proposalId r (some true) := by
  have hsum := h.voteStake r (some true)
  have hside : (c.tally s).ayes + _ = _ := hclip.record.1
  rw [h.tallyOf]
  by_cases hr : r = c.voter.role
  · subst hr
    simp only [if_true] at hsum ⊢
    omega
  · simp only [hr, Ne.symm hr, if_false] at hsum ⊢
    omega

theorem Cast.Done.nays {c : Cast T} (h : c.Done s s') (hclip : c.NoClip s) (r : Role) :
    (s'.tallyOf c.proposalId r).nays + s.voteStake c.projectId c.proposalId r (some false) =
      (s.tallyOf c.proposalId r).nays + s'.voteStake c.projectId c.proposalId r (some false) := by
  have hsum := h.voteStake r (some false)
  have hside : (c.tally s).nays + _ = _ := hclip.record.2
  rw [h.tallyOf]
  by_cases hr : r = c.voter.role
  · subst hr
    simp only [if_true] at hsum ⊢
    omega
  · simp only [hr, Ne.symm hr, if_false] at hsum ⊢
    omega

theorem Cast.Done.room {c : Cast T} (h : c.Done s s') (hclip : c.NoClip s) (r : Role) :
    (s'.tallyOf c.proposalId r).ayes + (s'.tallyOf c.proposalId r).nays +
        s'.voteStake c.projectId c.proposalId r none =
      (s.tallyOf c.proposalId r).ayes + (s.tallyOf c.proposalId r).nays +
        s.voteStake c.projectId c.proposalId r none := by
  have hsum := h.voteStake r none
  have htotal : (c.tally s).ayes + (c.tally s).nays = _ := hclip.record_total
  rw [h.tallyOf]
  by_cases hr : r = c.voter.role
  · subst hr
    simp only [if_true, reduceCtorEq, if_false] at hsum ⊢
    omega
  · simp only [hr, Ne.symm hr, if_false] at hsum ⊢
    omega

-- ---------------------------------------------------------------------------
-- The invariant
-- ---------------------------------------------------------------------------

/-- The step lowers the stake of `who` in project `p`, as only a slash does. -/
def LowersStake (p : Nat) (who : T.AccountId) (x : State T × Action T × State T) : Prop :=
  ∃ y y', x.1.stakeholders.get (p, who) = some y ∧ x.2.2.stakeholders.get (p, who) = some y' ∧
    y'.stake < y.stake

def Unslashed (tr : Trace T) (s : State T) (id p : Nat) (who : T.AccountId) : Prop :=
  ∀ x ∈ stepsOf tr s, (x.1.votes.get (id, who)).isSome → ¬LowersStake p who x

structure TallyOk (tr : Trace T) (s : State T) (id p : Nat) : Prop where
  voter : ∀ a v, s.votes.get (id, a) = some v → (s.stakeholders.get (p, a)).isSome
  unslashed : ∀ a v x, s.votes.get (id, a) = some v → s.stakeholders.get (p, a) = some x →
    Unslashed tr s id p a → x.stake = firstStake tr id a
  total : ∀ r, (s.tallyOf id r).ayes + (s.tallyOf id r).nays =
    s.roleSum p r fun a _ => firstStake tr id a
  ayes : ∀ r, s.voteStake p id r (some true) ≤ (s.tallyOf id r).ayes
  nays : ∀ r, s.voteStake p id r (some false) ≤ (s.tallyOf id r).nays
  room : ∀ r, (s.tallyOf id r).ayes + (s.tallyOf id r).nays + s.voteStake p id r none ≤ T.maxBalance

theorem stake_le_voteStake (id : Nat) (hx : s.stakeholders.get (p, who) = some x)
    (hv : s.votes.get (id, who) = v) : x.stake ≤ s.voteStake p id x.role v := by
  have hle := le_roleSum (r := x.role)
    (w := fun a x => if s.votes.get (id, a) = v then x.stake else 0) hx rfl
  simpa [hv, State.voteStake] using hle

theorem TallyOk.noClip (h : TallyOk tr s id p) (hx : s.stakeholders.get (p, who) = some x)
    (aye : Bool) :
    (s.tallyOf id x.role).NoClip T.maxBalance (s.votes.get (id, who)) x.stake aye := by
  have hA := h.ayes x.role
  have hN := h.nays x.role
  have hroom := h.room x.role
  have hown := stake_le_voteStake id hx rfl
  refine ⟨fun hp => ?_, fun hp => ?_, fun _ => ?_, fun _ => ?_⟩
  · rw [hp] at hown
    omega
  · rw [hp] at hown
    omega
  · split
    · rename_i hp
      rw [hp] at hown
      omega
    · rcases hp : s.votes.get (id, who) with _ | _ | _
      · rw [hp] at hown
        omega
      · rw [hp] at hown
        omega
      · contradiction
  · split
    · rename_i hp
      rw [hp] at hown
      omega
    · rcases hp : s.votes.get (id, who) with _ | _ | _
      · rw [hp] at hown
        omega
      · contradiction
      · rw [hp] at hown
        omega

theorem TallyOk.unused (hreg : RegistryExact s) (hb : BallotsOnProposals s)
    (hv : ∀ a, (firstCast tr id a).isSome = (s.votes.get (id, a)).isSome)
    (hn : s.proposals.get id = none) (p : Nat) : TallyOk tr s id p := by
  have hvote : ∀ a, s.votes.get (id, a) = none := fun a => hb.vote id a hn
  have hfirst : ∀ a, firstStake tr id a = 0 := by
    intro a
    have ha := hv a
    rw [hvote, Option.isSome_none, Option.isSome_eq_false_iff, Option.isNone_iff_eq_none] at ha
    simp [firstStake, ha]
  have hzero : ∀ r v, s.voteStake p id r (some v) = 0 := by
    intro r v
    apply roleSum_eq_zero
    intro a x _
    simp [hvote]
  refine ⟨?_, ?_, ?_, ?_, ?_, ?_⟩
  · simp [hvote]
  · simp [hvote]
  · intro r
    rw [hb.tally id r hn]
    symm
    apply roleSum_eq_zero
    intro a x _
    exact hfirst a
  · intro r
    rw [hzero]
    exact Nat.zero_le _
  · intro r
    rw [hzero]
    exact Nat.zero_le _
  · intro r
    have hall : s.voteStake p id r none = s.registered p r := by
      apply roleSum_congr
      intro a x _ _
      simp [hvote]
    rw [hb.tally id r hn, hall]
    have hfits := hreg.fits p
    have hle := registered_le_projectStake s p r
    simp only [Nat.add_zero, Nat.zero_add]
    omega

theorem TallyOk.keep (h : TallyOk tr s id p) (hst : Step s act s') (hf : FreshProject s act)
    (hp : (s.projects.get p).isSome) (hvotes : ∀ a, s'.votes.get (id, a) = s.votes.get (id, a))
    (htally : ∀ r, s'.tallyOf id r = s.tallyOf id r) (hcast : ∀ a, castFor id a (s, act) = none) :
    TallyOk (tr ++ [(s, act)]) s' id p := by
  have hfirst : ∀ a, firstStake (tr ++ [(s, act)]) id a = firstStake tr id a := by
    intro a
    simp [firstStake, firstCast_snoc, hcast]
  have hstake : ∀ r v, s'.voteStake p id r v ≤ s.voteStake p id r v := by
    intro r v
    have hle := hst.roleSum_le (w := fun a x => if s.votes.get (id, a) = v then x.stake else 0)
      hf hp (fun a x n hn => by simp only; split <;> omega) r
    unfold State.voteStake
    simp only [hvotes]
    exact hle
  refine ⟨fun a v hv => ?_, fun a v x' hv hx' huns => ?_, fun r => ?_, fun r => ?_, fun r => ?_,
    fun r => ?_⟩
  · rw [hvotes] at hv
    obtain ⟨x, hx⟩ := Option.isSome_iff_exists.mp (h.voter a v hv)
    obtain ⟨x', hx', -⟩ := hst.stakeholder hx
    simp [hx']
  · rw [hvotes] at hv
    obtain ⟨x, hx⟩ := Option.isSome_iff_exists.mp (h.voter a v hv)
    obtain ⟨x'', hx'', -, hle⟩ := hst.stakeholder hx
    rw [hx'] at hx''
    cases hx''
    have hold : Unslashed tr s id p a := fun y hy => huns y (by simp [stepsOf_snoc, hy])
    have hnew := huns (s, act, s') (by simp [stepsOf_snoc]) (by simp [hv])
    have heq : x'.stake = x.stake := by
      by_contra hne
      exact hnew ⟨x, x', hx, hx', by omega⟩
    rw [hfirst, heq]
    exact h.unslashed a v x hv hx hold
  · simp only [htally, hfirst]
    rw [hst.roleSum_eq hf hp]
    exact h.total r
  · rw [htally]
    exact Nat.le_trans (hstake r _) (h.ayes r)
  · rw [htally]
    exact Nat.le_trans (hstake r _) (h.nays r)
  · rw [htally]
    have hle := hstake r none
    have hroom := h.room r
    omega

theorem firstStake_other {c : Cast T} (hc : castOf s act = some c) (ha : a ≠ c.who) :
    firstStake (tr ++ [(s, act)]) c.proposalId a = firstStake tr c.proposalId a := by
  simp [firstStake, firstCast_snoc, castFor_other hc ha]

theorem firstStake_self {c : Cast T} (hc : castOf s act = some c)
    (hv : (firstCast tr c.proposalId c.who).isSome = (s.votes.get (c.proposalId, c.who)).isSome) :
    firstStake (tr ++ [(s, act)]) c.proposalId c.who = firstStake tr c.proposalId c.who +
      if s.votes.get (c.proposalId, c.who) = none then c.voter.stake else 0 := by
  cases hfc : firstCast tr c.proposalId c.who with
  | none =>
    rw [hfc] at hv
    have hnone : s.votes.get (c.proposalId, c.who) = none := by simpa using hv.symm
    simp [firstStake, firstCast_snoc, hfc, castFor_self hc, hnone]
  | some c0 =>
    rw [hfc] at hv
    have hsome : s.votes.get (c.proposalId, c.who) ≠ none := Option.isSome_iff_ne_none.mp hv.symm
    simp [firstStake, firstCast_snoc, hfc, hsome]

theorem TallyOk.cast {c : Cast T} (h : TallyOk tr s c.proposalId c.projectId)
    (hv : ∀ a, (firstCast tr c.proposalId a).isSome = (s.votes.get (c.proposalId, a)).isSome)
    (hc : castOf s act = some c) (hd : c.Done s s') :
    TallyOk (tr ++ [(s, act)]) s' c.proposalId c.projectId := by
  have hclip : c.NoClip s := h.noClip hd.voter c.aye
  have hself := firstStake_self hc (hv c.who)
  refine ⟨fun a v hva => ?_, fun a v x hva hx huns => ?_, fun r => ?_, fun r => ?_, fun r => ?_,
    fun r => ?_⟩
  · rw [hd.stakeholders]
    by_cases ha : a = c.who
    · simp [ha, hd.voter]
    · rw [hd.votes_other ha] at hva
      exact h.voter a v hva
  · rw [hd.stakeholders] at hx
    have hold : Unslashed tr s c.proposalId c.projectId a :=
      fun y hy => huns y (by simp [stepsOf_snoc, hy])
    by_cases ha : a = c.who
    · subst ha
      rw [hself]
      cases hprev : s.votes.get (c.proposalId, c.who) with
      | none =>
        rw [hd.voter] at hx
        cases hx
        have hw := hv c.who
        rw [hprev, Option.isSome_none, Option.isSome_eq_false_iff, Option.isNone_iff_eq_none] at hw
        simp [firstStake, hw]
      | some v0 => simpa using h.unslashed _ v0 x hprev hx hold
    · rw [hd.votes_other ha] at hva
      rw [firstStake_other hc ha]
      exact h.unslashed a v x hva hx hold
  · have hsum := roleSum_except (r := r)
      (fun a _ => firstStake (tr ++ [(s, act)]) c.proposalId a)
      (fun a _ => firstStake tr c.proposalId a) hd.voter (fun a _ ha => firstStake_other hc ha)
    have h0 := h.total r
    have htotal : (c.tally s).ayes + (c.tally s).nays = _ := hclip.record_total
    rw [roleSum_of_stakeholders hd.stakeholders, hd.tallyOf]
    by_cases hr : r = c.voter.role
    · subst hr
      simp only [if_true, hself] at hsum ⊢
      omega
    · simp only [hr, Ne.symm hr, if_false] at hsum ⊢
      omega
  · have hmoved := hd.ayes hclip r
    have h0 := h.ayes r
    omega
  · have hmoved := hd.nays hclip r
    have h0 := h.nays r
    omega
  · rw [hd.room hclip]
    exact h.room r

theorem TallyOk.step (h : TallyOk tr s id p) (hst : Step s act s') (hf : FreshProject s act)
    (hp : (s.projects.get p).isSome)
    (hv : ∀ a, (firstCast tr id a).isSome = (s.votes.get (id, a)).isSome)
    (hpr : s'.proposals.get id = some pr) (hproj : pr.projectId = p) :
    TallyOk (tr ++ [(s, act)]) s' id p := by
  rcases hst.ballotOn id with ⟨c, hc, hd, rfl⟩ | ⟨hother, hvotes, htally⟩
  · obtain ⟨pr', hpr', hproj', -⟩ := hd.proposal
    rw [hpr] at hpr'
    cases hpr'
    rw [← hproj, hproj'] at h ⊢
    exact h.cast hv hc hd
  · exact h.keep hst hf hp hvotes htally fun a =>
      castFor_eq_none fun c hc hk => hother c hc hk.1

theorem Reaches.tallyOk (hback : T.currency.Backed T.maxBalance)
    (hhold : T.currency.HoldExact) (hburn : T.currency.BurnAtMost) (h : Reaches tr s)
    (hf : Along FreshProposal tr) (hp : Along FreshProject tr)
    (hpr : s.proposals.get id = some pr) : TallyOk tr s id pr.projectId := by
  refine h.induct (I := fun tr t => ∀ pr, t.proposals.get id = some pr →
    TallyOk tr t id pr.projectId) (hf.and hp) ?_ ?_ pr hpr
  · rintro _ ⟨n, b, rfl, -⟩
    simp
  · intro tr m act t hm halong hst hfresh ih pr hpr
    have hreg := hm.registryExact hback hhold hburn (halong.mono fun _ _ h => h.2)
    have hok : TallyOk tr m id pr.projectId ∧ (m.projects.get pr.projectId).isSome := by
      rcases hst.proposal id with hfiled | ⟨-, h1⟩ | ⟨pr0, status, h0, h1, -⟩
      · obtain ⟨rfl, hproj, -, -, -, -, -, -, -, hput⟩ := hfiled
        rw [hput] at hpr
        cases hpr
        refine ⟨.unused hreg hm.ballotsOnProposals (hm.voted _) (hfresh.1 rfl) _, ?_⟩
        simp [newProposal, hproj]
      · rw [h1] at hpr
        cases hpr
      · rw [h1] at hpr
        cases hpr
        exact ⟨ih pr0 h0, hm.hasProject id pr0 h0⟩
    exact hok.1.step hst hfresh.2 hok.2 (hm.voted id) hpr rfl

theorem Reaches.noClip (hback : T.currency.Backed T.maxBalance)
    (hhold : T.currency.HoldExact) (hburn : T.currency.BurnAtMost) (h : Reaches tr s)
    (hf : Along FreshProposal tr) (hp : Along FreshProject tr) (hnew : FreshProposal s act)
    (hc : castOf s act = some c) : c.NoClip s := by
  obtain ⟨hvoter, ⟨pr, hpr, hproj⟩ | ⟨ha, hnext⟩⟩ := castOf_eq_some hc
  · exact (h.tallyOk hback hhold hburn hf hp hpr).noClip (hproj ▸ hvoter) c.aye
  · have hunused : TallyOk tr s c.proposalId c.projectId :=
      .unused (h.registryExact hback hhold hburn hp) h.ballotsOnProposals (h.voted _)
        (hnext ▸ hnew ha) _
    exact hunused.noClip hvoter c.aye

theorem TallyOk.exact (h : TallyOk tr s id p)
    (hv : ∀ a, (firstCast tr id a).isSome = (s.votes.get (id, a)).isSome)
    (huns : ∀ a x, s.stakeholders.get (p, a) = some x → x.role = r →
      (s.votes.get (id, a)).isSome → Unslashed tr s id p a) :
    (s.tallyOf id r).ayes = s.voteStake p id r (some true) ∧
      (s.tallyOf id r).nays = s.voteStake p id r (some false) := by
  have hsum : (s.roleSum p r fun a _ => firstStake tr id a) =
      s.voteStake p id r (some true) + s.voteStake p id r (some false) := by
    unfold State.voteStake
    rw [← roleSum_add]
    apply roleSum_congr
    intro a x hx hr
    cases hva : s.votes.get (id, a) with
    | none =>
      have hnone := hv a
      rw [hva, Option.isSome_none, Option.isSome_eq_false_iff, Option.isNone_iff_eq_none] at hnone
      simp [firstStake, hnone]
    | some v =>
      rw [← h.unslashed a v x hva hx (huns a x hx hr (by simp [hva]))]
      cases v <;> simp
  have htotal := h.total r
  have hA := h.ayes r
  have hN := h.nays r
  omega

/-- Tallies under slashing: votes are the stakeholders' own; the two sides of a
role add up to its voters' stakes at their first votes; each side has at least
the present stakes of those on it, exactly these if no voter was slashed after
voting; and no vote that can be cast now is clipped. -/
theorem tally_accounting (hback : T.currency.Backed T.maxBalance)
    (hhold : T.currency.HoldExact) (hburn : T.currency.BurnAtMost) (h : Reaches tr s)
    (hids : ProposalIdsBelowMax s) (hpids : ProjectIdsBelowMax s) :
    (∀ id pr, s.proposals.get id = some pr →
      (∀ a v, s.votes.get (id, a) = some v → (s.stakeholders.get (pr.projectId, a)).isSome) ∧
      ∀ r,
        (s.tallyOf id r).ayes + (s.tallyOf id r).nays = s.roleSum pr.projectId r (fun a _ =>
          if (s.votes.get (id, a)).isSome then firstStake tr id a else 0) ∧
        s.voteStake pr.projectId id r (some true) ≤ (s.tallyOf id r).ayes ∧
        s.voteStake pr.projectId id r (some false) ≤ (s.tallyOf id r).nays ∧
        ((∀ a x, s.stakeholders.get (pr.projectId, a) = some x → x.role = r →
            (s.votes.get (id, a)).isSome → Unslashed tr s id pr.projectId a) →
          (s.tallyOf id r).ayes = s.voteStake pr.projectId id r (some true) ∧
          (s.tallyOf id r).nays = s.voteStake pr.projectId id r (some false))) ∧
    ∀ act c, castOf s act = some c → (s.tallyOf c.proposalId c.voter.role).NoClip T.maxBalance
      (s.votes.get (c.proposalId, c.who)) c.voter.stake c.aye := by
  obtain ⟨hf, hcount⟩ := h.freshProposal hids
  have hp := (h.freshProject hpids).1
  have hok : ∀ id pr, s.proposals.get id = some pr → TallyOk tr s id pr.projectId :=
    fun id pr => h.tallyOk hback hhold hburn hf hp
  refine ⟨fun id pr hpr => ⟨(hok id pr hpr).voter, fun r => ⟨?_, (hok id pr hpr).ayes r,
    (hok id pr hpr).nays r, (hok id pr hpr).exact (h.voted id)⟩⟩, fun act c hc => ?_⟩
  · rw [(hok id pr hpr).total r]
    apply roleSum_congr
    intro a _ _ _
    rw [← h.voted id a]
    cases hfc : firstCast tr id a <;> simp [firstStake, hfc]
  · exact h.noClip hback hhold hburn hf hp (fun _ => hcount _ (Nat.le_refl _)) hc

theorem tally_accounting_slashed :
    let as := [Mock.genesis .coreDeveloper (Mock.percent 60) 10 0, Mock.propose 8 1,
      Mock.vote 8 0 true, Mock.propose 8 2, Mock.challenge 1 3, Mock.vote 8 0 false]
    (Mock.after as).tallyOf 0 .buildService = ⟨500, 500⟩ ∧
      ((Mock.after as).roleSum 0 .buildService fun a _ =>
        if ((Mock.after as).votes.get (0, a)).isSome then firstStake (Mock.trace as) 0 a else 0) =
        1000 := by
  intro as
  have h := tally_accounting Ledger.backed Ledger.holdExact Ledger.burnAtMost (Mock.reaches as)
    (by decide +kernel) (by decide +kernel)
  have ht : (Mock.after as).tallyOf 0 .buildService = ⟨500, 500⟩ := by decide +kernel
  obtain ⟨pr, hpr, hproj⟩ : ∃ pr, (Mock.after as).proposals.get 0 = some pr ∧ pr.projectId = 0 :=
    ⟨((Mock.after as).proposals.get 0).get (by decide +kernel), by simp, by decide +kernel⟩
  have hsum := ((h.1 0 pr hpr).2 .buildService).1
  rw [ht, hproj] at hsum
  exact ⟨ht, hsum.symm⟩

end Verigov
