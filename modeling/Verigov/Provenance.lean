import Verigov.Registry
import Verigov.ReleaseLog

/-!
# Provenance

The log is written long after the checks of `new_release`. The link between the
two is the proposal: every proposal in storage was created by a step of the run
(`Creates`), and no later step touches anything of it but its status.
-/

namespace Verigov

open State Transition

variable {T : Config} {s s' : State T} {id : Nat}

/-- The step is a `new_release` that creates proposal `id`; `pr` is the
proposal, in whatever status. -/
inductive Creates (id : Nat) (pr : Proposal T.AccountId) : State T × Action T × State T → Prop
  | mk (next : m.nextProposalId = id) (unused : m.proposals.get id = none)
      (created : (n.proposals.get id).isSome)
      (proposer : HasRole m pr.projectId pr.proposer .coreDeveloper)
      (builder : HasRole m pr.projectId pr.attestation.builder .buildService)
      (verified : T.verify sig pr.attestation.signingPayload pr.attestation.builder = true) :
      Creates id pr (m, .call (.signed pr.proposer)
        (.newRelease pr.projectId pr.version pr.attestation pr.attestationCid sig), n)

theorem Creates.withStatus (h : Creates id pr x) (status : ProposalStatus) :
    Creates id { pr with status } x := by
  obtain ⟨hn, hu, hc, hp, hb, hv⟩ := h
  exact ⟨hn, hu, hc, hp, hb, hv⟩

theorem Filed.creates (h : Filed s id s' a) (hf : FreshProposal s a)
    (hpr : s'.proposals.get id = some pr) : Creates id pr (s, a, s') := by
  obtain ⟨rfl, -, hx, hxr, hy, hyr, hv, -, -, hput⟩ := h
  rw [hput] at hpr
  cases hpr
  exact ⟨rfl, hf rfl, by simp [hput], ⟨_, hx, hxr⟩, ⟨_, hy, hyr⟩, hv⟩

theorem Reaches.created (h : Reaches tr s) (hf : Along FreshProposal tr)
    (hpr : s.proposals.get id = some pr) : ∃ x ∈ stepsOf tr s, Creates id pr x := by
  obtain ⟨s0, ⟨n, b, rfl, -⟩, hr⟩ := h
  refine hr.induct (I := fun tr t => ∀ pr, t.proposals.get id = some pr →
    ∃ x ∈ stepsOf tr t, Creates id pr x) hf (by simp) ?_ pr hpr
  intro tr m a t _ _ hst hfresh ih pr hpr
  rw [stepsOf_snoc]
  rcases hst.proposal id with hfiled | ⟨-, h1⟩ | ⟨pr0, status, h0, h1, -⟩
  · exact ⟨_, by simp, hfiled.creates hfresh hpr⟩
  · rw [h1] at hpr
    cases hpr
  · rw [h1] at hpr
    cases hpr
    obtain ⟨x, hx, hc⟩ := ih pr0 h0
    exact ⟨x, List.mem_append_left _ hx, hc.withStatus status⟩

/-- Behind every entry of the log there is the `new_release` that created its
proposal: for the same project, made by a core developer, with exactly the
data of the entry, signed over exactly that data by a build service of the
project. Both accounts have these roles to this day. -/
theorem releaseLog_provenance (h : Reaches tr s) (hids : ProposalIdsBelowMax s)
    (he : s.releaseLog.get (p, i) = some e) :
    ∃ m n who att sig,
      (m, Action.call (.signed who) (.newRelease p e.version att e.attestationCid sig), n) ∈
        stepsOf tr s ∧
      m.nextProposalId = e.proposalId ∧ m.proposals.get e.proposalId = none ∧
      (n.proposals.get e.proposalId).isSome ∧
      HasRole m p who .coreDeveloper ∧ HasRole m p att.builder .buildService ∧
      T.verify sig att.signingPayload att.builder = true ∧
      att.sourceCommitHash = e.sourceCommitHash ∧ att.outputBinaryHash = e.outputBinaryHash ∧
      HasRole s p who .coreDeveloper ∧ HasRole s p att.builder .buildService := by
  have hf := (h.freshProposal hids).1
  obtain ⟨pr, hpr, hrec⟩ := (h.logSound hf).entry p i e he
  obtain ⟨x, hx, hc⟩ := h.created hf hpr
  obtain ⟨hprop, hbuild⟩ := h.partiesRegistered e.proposalId pr hpr
  obtain ⟨hnext, hunused, hcreated, hp, hb, hv⟩ := hc
  rw [hrec.version, hrec.attestationCid] at hx
  obtain rfl := hrec.project
  exact ⟨_, _, pr.proposer, pr.attestation, _, hx, hnext, hunused, hcreated, hp, hb, hv,
    hrec.sourceCommitHash, hrec.outputBinaryHash, hprop, hbuild⟩

theorem releaseLog_provenance_enacted :
    let as := [Mock.genesis .coreDeveloper (Mock.percent 30) 1 7, Mock.propose 8 1, .block]
    ∃ who builder, HasRole (Mock.after as) 0 who .coreDeveloper ∧
      HasRole (Mock.after as) 0 builder .buildService := by
  intro as
  have he := Option.isSome_iff_exists.mp
    (show ((Mock.after as).releaseLog.get (0, 0)).isSome by decide +kernel)
  obtain ⟨e, he⟩ := he
  obtain ⟨m, n, who, att, sig, -, -, -, -, -, -, -, -, -, h1, h2⟩ :=
    releaseLog_provenance (Mock.reaches as) (by decide +kernel) he
  exact ⟨who, att.builder, h1, h2⟩

end Verigov
