import Verigov.Acceptance
import Verigov.Reuse
import Verigov.Tally

/-!
# Votes that are changed

Within a block a proposal can be voted on any number of times, and each account
can change its vote. As long as no addition or subtraction is clipped, a side of
a tally moves with the stake that is on it, whatever the order: the votes and
the tallies depend on each account's last vote only, and with them the status.
-/

namespace Verigov

open State Transition

variable {T : Config} {s s' t : State T} {id : Nat}

def voteAll (id : Nat) (xs : List (T.AccountId × Bool)) (s : State T) :
    Except DispatchError (State T) :=
  xs.foldlM (fun s x => vote (.signed x.1) id x.2 s) s

theorem voteAll_pair (h : vote (.signed who) id aye s = .ok s')
    (h' : vote (.signed who') id aye' s' = .ok t) :
    voteAll id [(who, aye), (who', aye')] s = .ok t := by
  simp [voteAll, h, h', bind, Except.bind, pure, Except.pure]

/-- The last vote of `a`, if it votes. -/
def lastVote [DecidableEq A] : List (A × Bool) → A → Option Bool
  | [], _ => none
  | x :: xs, a => (lastVote xs a).or (if x.1 = a then some x.2 else none)

/-- What votes on proposal `id` of project `p` leave, by the last vote of each account. -/
structure Revoted (id p : Nat) (last : T.AccountId → Option Bool) (s s' : State T) : Prop where
  vote : ∀ a, s'.votes.get (id, a) = (last a).or (s.votes.get (id, a))
  vote_other : ∀ id' a, id' ≠ id → s'.votes.get (id', a) = s.votes.get (id', a)
  ayes : ∀ r, (s'.tallyOf id r).ayes + s.voteStake p id r (some true) =
    (s.tallyOf id r).ayes + s'.voteStake p id r (some true)
  nays : ∀ r, (s'.tallyOf id r).nays + s.voteStake p id r (some false) =
    (s.tallyOf id r).nays + s'.voteStake p id r (some false)
  tally_other : ∀ id' r, id' ≠ id → s'.tallyOf id' r = s.tallyOf id' r
  projects : s'.projects = s.projects
  stakeholders : s'.stakeholders = s.stakeholders
  roleStake : s'.roleStake = s.roleStake

theorem Revoted.nil (id p : Nat) (s : State T) : Revoted id p (lastVote []) s s :=
  ⟨fun _ => by simp [lastVote], fun _ _ _ => rfl, fun _ => rfl, fun _ => rfl, fun _ _ _ => rfl, rfl,
    rfl, rfl⟩

theorem Revoted.cons {x : T.AccountId × Bool} {xs : List (T.AccountId × Bool)}
    (h : Revoted id p (lastVote [x]) s s') (h' : Revoted id p (lastVote xs) s' t) :
    Revoted id p (lastVote (x :: xs)) s t where
  vote a := by rw [h'.vote, h.vote, ← Option.or_assoc]; rfl
  vote_other id' a hid := (h'.vote_other id' a hid).trans (h.vote_other id' a hid)
  ayes r := by
    have h1 := h.ayes r
    have h2 := h'.ayes r
    omega
  nays r := by
    have h1 := h.nays r
    have h2 := h'.nays r
    omega
  tally_other id' r hid := (h'.tally_other id' r hid).trans (h.tally_other id' r hid)
  projects := h'.projects.trans h.projects
  stakeholders := h'.stakeholders.trans h.stakeholders
  roleStake := h'.roleStake.trans h.roleStake

/-- One vote, when it is not clipped. -/
theorem vote_revoted (hpr : s.proposals.get id = some pr)
    (h : vote (.signed who) id aye s = .ok s')
    (hclip : ∀ c, castOf s (.call (.signed who) (.vote id aye)) = some c → c.NoClip s) :
    Revoted id pr.projectId (lastVote [(who, aye)]) s s' := by
  obtain ⟨who', pr', info, voter, ho, hpr', -, -, -, hvoter, -⟩ := vote_ok h
  cases ho
  rw [hpr] at hpr'
  cases hpr'
  have hc := castOf_vote hpr hvoter aye
  have hdone := vote_done hpr hvoter h
  refine ⟨fun a => ?_, fun id' a hid => ?_, hdone.ayes (hclip _ hc), hdone.nays (hclip _ hc),
    fun id' r hid => ?_, (vote_frame h).projects, hdone.stakeholders, hdone.roleStake⟩
  · by_cases ha : a = who
    · subst ha
      simp [hdone.votes, lastVote]
    · simp [hdone.votes_other ha, lastVote, Ne.symm ha]
  · rw [hdone.votes, StorageMap.get_insert_ne]
    simp [hid]
  · unfold tallyOf
    rw [hdone.tallies, StorageMap.getD_insert, if_neg]
    simp [hid]

theorem Reaches.revoted (hback : T.currency.Backed T.maxBalance) (hhold : T.currency.HoldExact)
    (hburn : T.currency.BurnAtMost) (hr : Reaches tr s) (hf : Along FreshProposal tr)
    (hf' : Along FreshProject tr) (hpr : s.proposals.get id = some pr)
    {xs : List (T.AccountId × Bool)} (h : voteAll id xs s = .ok s') :
    Revoted id pr.projectId (lastVote xs) s s' := by
  induction xs generalizing s tr pr with
  | nil =>
    simp only [voteAll, List.foldlM_nil, pure_eq_ok] at h
    subst h
    exact .nil id pr.projectId s
  | cons x xs ih =>
    simp only [voteAll, List.foldlM_cons, bind_eq_ok] at h
    obtain ⟨m, hx, hxs⟩ := h
    -- The vote is one more step of the run, and a step that takes no id.
    have hst : Step s (.call (.signed x.1) (.vote id x.2)) m := .call _ _ hx
    have hr' := hr.append (.single hst)
    have hkept : ∃ pr', m.proposals.get id = some pr' ∧ pr'.projectId = pr.projectId := by
      rcases vote_kept hx id with ⟨h0, -⟩ | ⟨pr0, status, h0, h1, -⟩
      · rw [h0] at hpr
        cases hpr
      · rw [h0] at hpr
        cases hpr
        exact ⟨_, h1, rfl⟩
    obtain ⟨pr', hpr', hproj⟩ := hkept
    have hone := vote_revoted hpr hx fun c hc =>
      hr.noClip hback hhold hburn hf hf' (fun hn => by cases hn) hc
    have hrest := ih hr' (along_append.mpr ⟨hf, by simp [FreshProposal, Action.isNewRelease]⟩)
      (along_append.mpr ⟨hf', by simp [FreshProject, Action.isProjectGenesis]⟩) hpr' hxs
    rw [hproj] at hrest
    exact hone.cons hrest

section Same

variable {p : Nat} {last last' : T.AccountId → Option Bool}

theorem Revoted.votes_eq (h : Revoted id p last s s') (h' : Revoted id p last' s t)
    (hlast : ∀ a, last a = last' a) : s'.votes = t.votes := by
  apply StorageMap.ext
  rintro ⟨id', a⟩
  by_cases hid : id' = id
  · rw [hid, h.vote, h'.vote, hlast]
  · rw [h.vote_other id' a hid, h'.vote_other id' a hid]

theorem Revoted.tallyOf_eq (h : Revoted id p last s s') (h' : Revoted id p last' s t)
    (hlast : ∀ a, last a = last' a) (id' : Nat) (r : Role) :
    s'.tallyOf id' r = t.tallyOf id' r := by
  have hside : ∀ v, s'.voteStake p id r v = t.voteStake p id r v := by
    intro v
    unfold State.voteStake
    rw [h.votes_eq h' hlast, roleSum_of_stakeholders (h.stakeholders.trans h'.stakeholders.symm)]
  by_cases hid : id' = id
  · subst hid
    have hayes := h.ayes r
    have hayes' := h'.ayes r
    have hnays := h.nays r
    have hnays' := h'.nays r
    rw [hside] at hayes hnays
    apply RoleTally.ext
    · omega
    · omega
  · rw [h.tally_other id' r hid, h'.tally_other id' r hid]

theorem Revoted.meetsQuorums_eq (h : Revoted id p last s s') (h' : Revoted id p last' s t)
    (hlast : ∀ a, last a = last' a) (info : ProjectInfo) :
    meetsQuorums p info id s' = meetsQuorums p info id t := by
  refine meetsQuorums_congr (fun r => ?_) (h.tallyOf_eq h' hlast id)
  unfold roleStakeOf
  rw [h.roleStake, h'.roleStake]

end Same

def Decided (id p : Nat) (s : State T) : Prop :=
  ∃ pr info, s.proposals.get id = some pr ∧ pr.projectId = p ∧ pr.status.isOpen = true ∧
    s.projects.get p = some info ∧
    ((∃ enactAt, pr.status = .approved enactAt) ↔ meetsQuorums p info id s = true)

theorem vote_decided (hpr : s.proposals.get id = some pr) (hp : pr.projectId = p)
    (h : vote origin id aye s = .ok s') : Decided id p s' := by
  obtain ⟨who, pr', info, voter, -, hpr', ho, -, hproj, -, hv⟩ := vote_ok h
  rw [hpr] at hpr'
  cases hpr'
  subst hp
  obtain ⟨pr', hget, hp', ho'⟩ := doVote_isOpen hv hpr ho
  have hproj' : s'.projects.get pr.projectId = some info := by
    rw [(doVote_frame hv).projects, hproj]
  have hagrees := doVote_agreesAt hv hpr rfl hproj pr' info hget (by rw [hp', hproj']) ho'
  rw [hp'] at hagrees
  exact ⟨pr', info, hget, hp', ho', hproj', hagrees⟩

theorem voteAll_decided {xs : List (T.AccountId × Bool)} (hne : xs ≠ [])
    (hpr : s.proposals.get id = some pr) (h : voteAll id xs s = .ok s') :
    Decided id pr.projectId s' := by
  cases xs with
  | nil => exact absurd rfl hne
  | cons x xs =>
    simp only [voteAll, List.foldlM_cons, bind_eq_ok] at h
    obtain ⟨m, hx, hxs⟩ := h
    refine foldlM_induct (I := Decided id pr.projectId) hxs (vote_decided hpr rfl hx) ?_
    rintro y n n' hy ⟨pr', _, hpr', hp', -⟩
    exact vote_decided hpr' hp' hy

/-- Only the last votes count: two sequences of votes on a proposal that end in the
same vote of each account leave the same votes and tallies, and the proposal approved
in both or in neither. -/
theorem votes_order_irrelevant (hback : T.currency.Backed T.maxBalance)
    (hhold : T.currency.HoldExact) (hburn : T.currency.BurnAtMost) (h : Reaches tr s)
    (hf : Along FreshProposal tr) (hf' : Along FreshProject tr)
    (hpr : s.proposals.get id = some pr) {xs ys : List (T.AccountId × Bool)} (hx : xs ≠ [])
    (hy : ys ≠ []) (hxs : voteAll id xs s = .ok s1) (hys : voteAll id ys s = .ok s2)
    (hlast : ∀ a, lastVote xs a = lastVote ys a) :
    s1.votes = s2.votes ∧ (∀ id' r, s1.tallyOf id' r = s2.tallyOf id' r) ∧
      ∃ pr1 pr2, s1.proposals.get id = some pr1 ∧ s2.proposals.get id = some pr2 ∧
        pr1.status.isOpen = true ∧ pr2.status.isOpen = true ∧
        ((∃ enactAt, pr1.status = .approved enactAt) ↔
          ∃ enactAt, pr2.status = .approved enactAt) := by
  have h1 := h.revoted hback hhold hburn hf hf' hpr hxs
  have h2 := h.revoted hback hhold hburn hf hf' hpr hys
  obtain ⟨pr1, info1, hpr1, -, ho1, hproj1, hiff1⟩ := voteAll_decided hx hpr hxs
  obtain ⟨pr2, info2, hpr2, -, ho2, hproj2, hiff2⟩ := voteAll_decided hy hpr hys
  rw [h1.projects] at hproj1
  rw [h2.projects, hproj1] at hproj2
  cases hproj2
  refine ⟨h1.votes_eq h2 hlast, h1.tallyOf_eq h2 hlast, pr1, pr2, hpr1, hpr2, ho1, ho2, ?_⟩
  rw [hiff1, hiff2, h1.meetsQuorums_eq h2 hlast]

theorem votes_order_irrelevant_changed :
    let s := Mock.after [Mock.genesis .coreDeveloper (Mock.percent 60) 10 4, Mock.propose 8 1]
    ∃ s1 s2, voteAll (T := Mock.Test) 0 [(2, true), (3, true), (2, false)] s = .ok s1 ∧
      voteAll (T := Mock.Test) 0 [(2, false), (3, true)] s = .ok s2 ∧ s1.votes = s2.votes ∧
      s1.tallyOf 0 .coreDeveloper = s2.tallyOf 0 .coreDeveloper := by
  intro s
  obtain ⟨s1, h1⟩ := exists_ok (m := voteAll (T := Mock.Test) 0
    [(2, true), (3, true), (2, false)] s) (by decide +kernel)
  obtain ⟨s2, h2⟩ := exists_ok (m := voteAll (T := Mock.Test) 0 [(2, false), (3, true)] s)
    (by decide +kernel)
  have hlast : ∀ a : Nat, lastVote [(2, true), (3, true), (2, false)] a =
      lastVote [(2, false), (3, true)] a := by
    intro a
    by_cases h2 : 2 = a
    · subst h2
      rfl
    · by_cases h3 : 3 = a <;> simp [lastVote, h2, h3]
  obtain ⟨pr, hpr⟩ := Option.isSome_iff_exists.mp
    (show (s.proposals.get 0).isSome by decide +kernel)
  have h := votes_order_irrelevant Ledger.backed Ledger.holdExact Ledger.burnAtMost
    (Mock.reaches _) (by decide +kernel) (by decide +kernel) hpr (by simp) (by simp) h1 h2 hlast
  exact ⟨s1, s2, h1, h2, h.1, h.2.1 0 _⟩

/-- With an id that went from one project to another, the order of two ayes decides:
taken in one order they are counted as 2000 and approve, in the other as 1000. -/
theorem votes_order_matters_after_reuse :
    ∃ tr s s1 s2, exec ([Mock.genesis .coreDeveloper (Mock.percent 50) 2 0, Mock.trustees] ++
        List.replicate u32Max (Mock.propose 8 1) ++
        [Mock.propose 8 1, Mock.vote 6 u32Max true, Mock.proposeIn 1 8 2]) Mock.start =
          some (tr, s) ∧
      Reaches tr s ∧
      (∃ pr, s.proposals.get u32Max = some pr ∧ pr.status.isOpen = true) ∧
      voteAll (T := Mock.Test) u32Max [(6, true), (7, true)] s = .ok s1 ∧
      voteAll (T := Mock.Test) u32Max [(7, true), (6, true)] s = .ok s2 ∧
      (∀ a, lastVote [(6, true), (7, true)] a = lastVote [(7, true), (6, true)] a) ∧
      s1.tallyOf u32Max .communityTrustee = { ayes := 2000 } ∧
      s2.tallyOf u32Max .communityTrustee = { ayes := 1000 } ∧
      (∃ pr enactAt, s1.proposals.get u32Max = some pr ∧ pr.status = .approved enactAt) ∧
      ∃ pr, s2.proposals.get u32Max = some pr ∧ pr.status = .voting := by
  obtain ⟨tr, s, hexec, hreach, hs, -⟩ := Mock.exists_shared
  obtain ⟨m1, hm1, hs1⟩ := hs.vote_short (a := 6) (by decide) (by decide)
  obtain ⟨s1, pr1, e, hv1, hpr1, hst1, ht1⟩ := hs1.vote_approves (a := 7) (by decide) (by decide)
  obtain ⟨m2, hm2, hs2⟩ := hs.vote_short (a := 7) (by decide) (by decide)
  obtain ⟨s2, hv2, hs2'⟩ := hs2.vote_short (a := 6) (by decide) (by decide)
  obtain ⟨pr, hpr, -, hst, -⟩ := hs.proposal
  obtain ⟨pr2, hpr2, -, hst2, -⟩ := hs2'.proposal
  refine ⟨tr, s, s1, s2, hexec, hreach, ⟨pr, hpr, by rw [hst]; rfl⟩, ?_, ?_, ?_, ht1, hs2'.tally,
    ⟨pr1, e, hpr1, hst1⟩, pr2, hpr2, hst2⟩
  · exact voteAll_pair hm1 hv1
  · exact voteAll_pair hm2 hv2
  · intro a
    by_cases h6 : 6 = a
    · subst h6
      rfl
    · by_cases h7 : 7 = a <;> simp [lastVote, h6, h7]

end Verigov
