import Verigov.Registry
import Mathlib.Data.List.Perm.Subperm

/-!
# What a builder is slashed for

A build service answers for the attestations it signed. The pallet does not
remember them: a signed attestation can be presented in any number of releases,
and each of these can cost the builder a slash. What holds is a bound by
presentations: every slash uses up one accepted release with that attestation.
-/

namespace Verigov

open State Transition

variable {T : Config} {s s' : State T} {id : Nat}

/-- The payload of `b` that a release of project `p` presents, its signature verified. -/
def presentedBy (p : Nat) (b : T.AccountId) (x : State T × Action T) : Option (List UInt8) :=
  match x.2 with
  | .call _ (.newRelease projectId _ attestation _ builderSignature) =>
    if projectId = p ∧ attestation.builder = b ∧
        T.verify builderSignature attestation.signingPayload b then
      some attestation.signingPayload
    else none
  | _ => none

/-- The payload of `b` that an accepted counter-attestation in project `p` is about. -/
def slashedFor (p : Nat) (b : T.AccountId) (x : State T × Action T) : Option (List UInt8) :=
  match x.2 with
  | .call _ (.submitCounterAttestation proposalId _) => do
    let pr ← x.1.proposals.get proposalId
    if pr.projectId = p ∧ pr.attestation.builder = b then some pr.attestation.signingPayload
    else none
  | _ => none

def presentations (tr : Trace T) (p : Nat) (b : T.AccountId) : List (List UInt8) :=
  tr.filterMap (presentedBy p b)

def slashes (tr : Trace T) (p : Nat) (b : T.AccountId) : List (List UInt8) :=
  tr.filterMap (slashedFor p b)

def Proposal.carries [DecidableEq AccountId] (pr : Proposal AccountId) (p : Nat) (b : AccountId)
    (v : List UInt8) : Nat :=
  if pr.projectId = p ∧ pr.attestation.builder = b ∧ pr.attestation.signingPayload = v then 1 else 0

/-- The open proposals of project `p` with payload `v` of `b`. -/
def State.openWith (s : State T) (p : Nat) (b : T.AccountId) (v : List UInt8) : Nat :=
  s.proposals.sum fun _ pr => if pr.status.isOpen then pr.carries p b v else 0

theorem openWith_le (h : ∀ id, Kept act s s' id) (p : Nat) (b : T.AccountId) (v : List UInt8) :
    s'.openWith p b v ≤ s.openWith p b v := by
  apply StorageMap.sum_le_of_get
  intro id
  rcases h id with ⟨h0, h1⟩ | ⟨pr, st, h0, h1, hm⟩
  · rw [h0, h1]
  · rw [h0, h1]
    have hsame : { pr with status := st }.carries p b v = pr.carries p b v := rfl
    cases ho : pr.status.isOpen with
    | true =>
      simp only [Option.elim_some, ho, if_true, hsame]
      split <;> omega
    | false => simp [hm.closed ho, ho]

theorem Slashes.openWith (h : Slashes s id s' pr info y slashed) (p : Nat) (b : T.AccountId)
    (v : List UInt8) : s'.openWith p b v + pr.carries p b v = s.openWith p b v := by
  have hsum := s.proposals.sum_insert (fun _ (pr : Proposal T.AccountId) =>
    if pr.status.isOpen then pr.carries p b v else 0) id { pr with status := .rejected }
  have hclosed : ProposalStatus.rejected.isOpen = false := rfl
  rw [h.proposal, ← h.proposals] at hsum
  simp only [Option.elim_some, h.isOpen, hclosed, if_true, Bool.false_eq_true, if_false] at hsum
  exact hsum

theorem newRelease_inserts (h : newRelease origin p version att cid sig s = .ok s') :
    ∃ pr, s'.proposals = s.proposals.insert s.nextProposalId pr ∧ pr.projectId = p ∧
      pr.attestation = att := by
  obtain ⟨pr, hput, hp, hatt⟩ : ∃ pr, s'.proposals.get s.nextProposalId = some pr ∧
      pr.projectId = p ∧ pr.attestation = att := by
    obtain ⟨-, -, -, -, -, -, -, -, -, hput⟩ := newRelease_filed h
    exact ⟨_, hput, rfl, rfl⟩
  refine ⟨pr, StorageMap.ext fun id => ?_, hp, hatt⟩
  rw [StorageMap.get_insert]
  split
  · rename_i hid
    rw [hid, hput]
  · rename_i hid
    exact newRelease_other h hid

theorem newRelease_openWith (h : newRelease origin q version att cid sig s = .ok s') (p : Nat)
    (b : T.AccountId) (v : List UInt8) :
    s'.openWith p b v ≤ s.openWith p b v +
      if q = p ∧ att.builder = b ∧ att.signingPayload = v then 1 else 0 := by
  obtain ⟨pr, hins, rfl, rfl⟩ := newRelease_inserts h
  have hsum := s.proposals.sum_insert (fun _ (pr : Proposal T.AccountId) =>
    if pr.status.isOpen then pr.carries p b v else 0) s.nextProposalId pr
  have hle : (if pr.status.isOpen then pr.carries p b v else 0) ≤ pr.carries p b v := by
    split <;> omega
  have hcarries : pr.carries p b v = if pr.projectId = p ∧ pr.attestation.builder = b ∧
      pr.attestation.signingPayload = v then 1 else 0 := rfl
  rw [← hins] at hsum
  unfold State.openWith
  omega

theorem newRelease_presents (h : newRelease origin q version att cid sig s = .ok s') (p : Nat)
    (b : T.AccountId) (v : List UInt8) :
    (if q = p ∧ att.builder = b ∧ att.signingPayload = v then 1 else 0) ≤
      (presentations [(s, .call origin (.newRelease q version att cid sig))] p b).count v := by
  have hsig : T.verify sig att.signingPayload att.builder = true := by
    obtain ⟨-, -, -, -, -, -, hsig, -, -, -⟩ := newRelease_filed h
    exact hsig
  split
  · rename_i hv
    obtain ⟨rfl, rfl, rfl⟩ := hv
    simp [presentations, presentedBy, hsig]
  · exact Nat.zero_le _

theorem slashes_challenge (origin : Origin T) (rebuilt : Hash32)
    (hpr : s.proposals.get id = some pr) (p : Nat) (b : T.AccountId) (v : List UInt8) :
    (slashes [(s, .call origin (.submitCounterAttestation id rebuilt))] p b).count v =
      pr.carries p b v := by
  simp only [slashes, slashedFor, hpr, Proposal.carries, List.filterMap_cons,
    List.filterMap_nil, Option.bind_eq_bind, Option.bind_some]
  by_cases hp : pr.projectId = p ∧ pr.attestation.builder = b
  · simp [hp, List.count_singleton]
  · have hne : ¬(pr.projectId = p ∧ pr.attestation.builder = b ∧
        pr.attestation.signingPayload = v) := fun hall => hp ⟨hall.1, hall.2.1⟩
    simp only [if_neg hp, if_neg hne, List.count_nil]

theorem slashes_of_unchallenged (hc : act.challenged = none) (p : Nat) (b : T.AccountId) :
    slashes [(s, act)] p b = [] := by
  cases act with
  | call origin c =>
    cases c with
    | submitCounterAttestation => cases hc
    | _ => rfl
  | _ => rfl

/-- What a step slashes for, it takes from the open proposals; what it opens, it presents. -/
theorem Step.offence (h : Step s act s') (p : Nat) (b : T.AccountId) (v : List UInt8) :
    (slashes [(s, act)] p b).count v + s'.openWith p b v ≤
      s.openWith p b v + (presentations [(s, act)] p b).count v := by
  cases hc : act.challenged with
  | some id =>
    obtain ⟨origin, rebuilt, rfl⟩ := Action.challenged_eq_some hc
    cases h with
    | call _ _ h =>
      obtain ⟨pr, info, y, slashed, hsl⟩ := submitCounterAttestation_slashes h
      have hsum := hsl.openWith p b v
      rw [slashes_challenge origin rebuilt hsl.proposal]
      omega
  | none =>
    rw [slashes_of_unchallenged hc, List.count_nil]
    by_cases hnew : act.isNewRelease
    · cases h with
      | call origin c h =>
        cases c with
        | newRelease q version att cid sig =>
          have hle := newRelease_openWith h p b v
          have hcount := newRelease_presents h p b v
          omega
        | _ => cases hnew
      | _ => cases hnew
    · have hkept : ∀ id, Kept act s s' id := by
        intro id
        rcases h.proposal id with hfiled | hkept
        · cases hfiled
          exact absurd rfl hnew
        · exact hkept
      have hle := openWith_le hkept p b v
      omega

theorem Reaches.slashes_count_le (h : Reaches tr s) (p : Nat) (b : T.AccountId) (v : List UInt8) :
    (slashes tr p b).count v + s.openWith p b v ≤ (presentations tr p b).count v := by
  obtain ⟨s0, ⟨n, bal, rfl, -⟩, hr⟩ := h
  refine hr.induct (P := fun _ _ => True) (I := fun tr t => (slashes tr p b).count v +
    t.openWith p b v ≤ (presentations tr p b).count v) (fun _ _ => trivial) ?_ ?_
  · simp [slashes, presentations, State.openWith]
  · intro tr m act t _ _ hst _ ih
    have hstep := hst.offence p b v
    simp only [slashes, presentations, List.filterMap_append, List.count_append] at ih hstep ⊢
    omega

/-- A builder is slashed for a payload at most as often as the payload was presented
in a release of the project, and so at most as often as it was presented at all. -/
theorem slashes_le_presentations (h : Reaches tr s) (p : Nat) (b : T.AccountId) :
    (∀ v, (slashes tr p b).count v ≤ (presentations tr p b).count v) ∧
      (slashes tr p b).length ≤ (presentations tr p b).length := by
  have hcount : ∀ v, (slashes tr p b).count v ≤ (presentations tr p b).count v := by
    intro v
    exact Nat.le_trans (Nat.le_add_right _ _) (h.slashes_count_le p b v)
  exact ⟨hcount, (List.subperm_ext_iff.mpr fun v _ => hcount v).length_le⟩

theorem slashes_le_presentations_twice :
    let tr := Mock.trace [Mock.genesis .coreDeveloper (Mock.percent 50) 10 6, Mock.propose 8 1,
      Mock.propose 8 1, Mock.challenge 0 4, Mock.challenge 1 4]
    (slashes tr 0 8).length = 2 ∧ (slashes tr 0 8).length ≤ (presentations tr 0 8).length := by
  intro tr
  exact ⟨by decide +kernel, (slashes_le_presentations (Mock.reaches _) 0 8).2⟩

/-- One signed attestation, presented in a second release after the first one was
rejected, costs its builder two slashes. -/
theorem slashed_twice_for_one_attestation :
    let as := [Mock.genesis .coreDeveloper (Mock.percent 50) 10 6, Mock.propose 8 1,
      Mock.challenge 0 3, Mock.propose 8 1, Mock.challenge 1 3]
    Reaches (Mock.trace as) (Mock.after as) ∧ (slashes (Mock.trace as) 0 8).length = 2 ∧
      (presentations (Mock.trace as) 0 8).dedup.length = 1 ∧
      (Mock.after as).stakeholders.get (0, 8) = some ⟨.buildService, 250⟩ := by
  intro as
  exact ⟨Mock.reaches as, by decide +kernel, by decide +kernel, by decide +kernel⟩

end Verigov
