import Verigov.Closed
import Verigov.Provenance
import Verigov.Watch

/-!
# From the vote to the file

Where a file comes from that the client leaves behind: an entry of the log, and
behind the entry the call that proposed it and the block in which it passed.
Neither the store nor the rest of the disk is trusted for this, nor does the loop
have to return.
-/

namespace Verigov

open State Transition Path

variable {T : Config} {P : Platform T.AccountId} {host : Host} {s t : State T} {p i : Nat}
  {tr : Trace T} {d : Disk} {e : ReleaseEntry}

-- ---------------------------------------------------------------------------
-- Behind an entry
-- ---------------------------------------------------------------------------

structure Passes (m : State T) (p : Nat) (e : ReleaseEntry) : Prop where
  approved : ∃ pr enactAt, m.proposals.get e.proposalId = some pr ∧ pr.projectId = p ∧
    pr.status = .approved enactAt
  quorums : ∃ info, m.projects.get p = some info ∧ meetsQuorums p info e.proposalId m = true
  enactedAt : e.enactedAt = m.blockNumber + 1

theorem hookState_logs (s : State T) (ids : List Nat)
    (h : (hookState s ids).releaseLog.get (p, i) = some e) :
    s.releaseLog.get (p, i) = some e ∨ Passes s p e := by
  induction ids using List.reverseRecOn with
  | nil => exact .inl h
  | append_singleton ids id ih =>
    have hfr := (hookState_frame s ids).1
    rw [hookState_append] at h
    rcases enact_cases id (s.blockNumber + 1) (hookState s ids) with
      ⟨pr, enactAt, info, hpr, hst, hproj, ⟨hmet, heq⟩ | ⟨-, heq⟩⟩ | ⟨heq, -⟩ <;> rw [heq] at h
    · rcases logRelease_get_cases h with ⟨hk, rfl⟩ | h
      · obtain ⟨rfl, -⟩ := Prod.mk.inj hk
        rw [hfr.projects] at hproj
        rw [hfr.meetsQuorums] at hmet
        exact .inr ⟨⟨pr, enactAt, hookState_approved hpr hst, rfl, hst⟩, ⟨info, hproj, hmet⟩, rfl⟩
      · exact ih h
    · exact ih h
    · exact ih h

theorem Reaches.passed (h : Reaches tr s) (he : s.releaseLog.get (p, i) = some e) :
    ∃ m n, (m, Action.block, n) ∈ stepsOf tr s ∧ Passes m p e := by
  obtain ⟨s0, ⟨n, b, rfl, -⟩, hr⟩ := h
  refine hr.induct (P := fun _ _ => True) (I := fun tr t =>
    t.releaseLog.get (p, i) = some e → ∃ m n, (m, Action.block, n) ∈ stepsOf tr t ∧ Passes m p e)
    (fun _ _ => trivial) (by simp) ?_ he
  intro tr m a t _ _ hst _ ih he
  rw [stepsOf_snoc]
  have hold : m.releaseLog.get (p, i) = some e → ∃ m' n', (m', Action.block, n') ∈
      stepsOf tr m ++ [(m, a, t)] ∧ Passes m' p e := by
    intro hm
    obtain ⟨m', n', hmem, hpass⟩ := ih hm
    exact ⟨m', n', List.mem_append_left _ hmem, hpass⟩
  by_cases ha : a = .block
  · subst ha
    cases hst
    rw [nextBlock_eq] at he
    rcases hookState_logs m _ he with hm | hpass
    · exact hold hm
    · exact ⟨m, nextBlock m, by simp, hpass⟩
  · rw [(hst.callFrame ha).releaseLog] at he
    exact hold he

theorem Leads.entry (h : Leads s t) (hs : Reachable s) (hmax : BelowMax t)
    (he : s.releaseLog.get (p, i) = some e) : t.releaseLog.get (p, i) = some e := by
  obtain ⟨tr, hr⟩ := hs
  have hbelow := hmax.before h
  have hlog := hr.logOk (hr.freshProposal hbelow.proposals).1 hbelow.releases
  obtain ⟨pr, hpr, hrec⟩ := hlog.entry p i e he
  have hproject := hr.hasProject _ pr hpr
  rw [hrec.project] at hproject
  rw [(h.extends ⟨tr, hr⟩ hmax hproject).log i ((hlog.defined p i).mp (by rw [he]; rfl)), he]

-- ---------------------------------------------------------------------------
-- Behind a file
-- ---------------------------------------------------------------------------

def Views.states (v : Views T) : Set (State T) :=
  {v.project, v.count} ∪ Set.range v.entry ∪ Set.range v.builder

/-- How an entry of the log came about: by a core developer's call with the signature
of a build service over its digests, and by a block that found the vote standing.
No one has shown another build for it, and no one can any more. -/
structure Custody (tr : Trace T) (s : State T) (p : Nat) (e : ReleaseEntry)
    (pr : Proposal T.AccountId) : Prop where
  proposal : s.proposals.get e.proposalId = some pr
  records : e.Records p pr
  created : ∃ x ∈ stepsOf tr s, Creates e.proposalId pr x
  passed : ∃ m n, (m, Action.block, n) ∈ stepsOf tr s ∧ Passes m p e
  unchallenged : ∀ tr' t, Run Step s tr' t → ProposalIdsBelowMax t →
    t.counterAttestations.get e.proposalId = none

theorem Reaches.custody (h : Reaches tr s) (hids : ProposalIdsBelowMax s)
    (he : s.releaseLog.get (p, i) = some e) : ∃ pr, Custody tr s p e pr := by
  have hf := (h.freshProposal hids).1
  obtain ⟨pr, hpr, hrec⟩ := (h.logSound hf).entry p i e he
  refine ⟨pr, hpr, hrec, h.created hf hpr, h.passed he, fun tr' t hr hids' => ?_⟩
  have hclosed : pr.status.isOpen = false := by rw [hrec.enacted]; rfl
  have hkept := Run.sameProposal hr (h.freshAlong hr hids') hpr hclosed
  rw [hkept.counterAttestation, Option.eq_none_iff_forall_ne_some]
  intro ca hca
  obtain ⟨pr', hpr', hagainst⟩ := (h.challengesRecorded hf).against _ ca hca
  obtain rfl : pr = pr' := Option.some.inj (hpr.symm.trans hpr')
  have hrejected := hagainst.rejected
  rw [hrec.enacted] at hrejected
  cases hrejected

/-- Whatever the store and the disk hold, however the chain and the client interleave
and wherever the client stops: each file it leaves was there before, or it is an
artifact, by its hash, of a release that was proposed, signed and voted on the
chain, in the place of that release. -/
theorem watch_custody (hP : P.Lawful) (h : Reaches tr s) (hmax : BelowMax s)
    {rounds : List (Views T)}
    (hseen : ∀ v ∈ rounds, ∀ m ∈ v.states, Reachable m ∧ Leads m s) (host : Host) (p : Nat)
    (installDir : Text) (d : Disk) {l : Location} {bytes : Bytes}
    (hfile : (Tool.left (watch P host p installDir rounds d)).node l = some (.file bytes)) :
    d.node l = some (.file bytes) ∨ ∃ project i e pr, s.projects.get p = some project ∧
      s.releaseLog.get (p, i) = some e ∧ Custody tr s p e pr ∧
      ArtifactOf P host installDir (P.u8aToString project.name.val) e l bytes := by
  refine (watch_writes hP host p installDir rounds d l bytes hfile).imp_right ?_
  rintro ⟨v, hv, project, i, e, hproject, -, he, hartifact⟩
  obtain ⟨hreach, hlead⟩ := hseen v hv v.project (by simp [Views.states])
  obtain ⟨hreach', hlead'⟩ := hseen v hv (v.entry i) (by simp [Views.states])
  have hproject' := (hlead.extends hreach hmax (by rw [hproject]; rfl)).project.trans hproject
  have he' := hlead'.entry hreach' hmax he
  obtain ⟨pr, hcustody⟩ := h.custody hmax.proposals he'
  exact ⟨project, i, e, pr, hproject', he', hcustody, hartifact⟩

namespace Mock

theorem mem_states_during {s s' m : State Chain} :
    m ∈ (during s s').states ↔ m = s ∨ m = s' := by
  simp only [Views.states, during, Set.range_const, Set.mem_union, Set.mem_insert_iff,
    Set.mem_singleton_iff]
  tauto

theorem twoRounds_seen :
    ∀ v ∈ twoRounds, ∀ m ∈ v.states, Reachable m ∧ Leads m distinct := by
  have hreach : Reachable opened := ⟨_, reaches_blessed _⟩
  have hearly := leads_early.reachable hreach
  simp only [twoRounds, List.forall_mem_cons, List.not_mem_nil, false_implies, implies_true,
    and_true, mem_states_during, forall_eq_or_imp, forall_eq]
  exact ⟨⟨⟨hreach, leads_early.trans leads_distinct⟩, hearly, leads_distinct⟩,
    ⟨hearly, leads_distinct⟩, leads_distinct.reachable hearly, .refl _⟩

end Mock

theorem watch_custody_distinct : ∃ tr project i e pr, Reaches tr Mock.distinct ∧
    Custody tr Mock.distinct 0 e pr ∧ Mock.distinct.releaseLog.get (0, i) = some e ∧
    ArtifactOf Mock.mirror Mock.repoHost Mock.installDir project e
      ["repo".toList, "install".toList, "a-4".toList] [0x78] := by
  have hreach := Mock.reaches_blessed (Mock.twoReleases ⟨[0x35], by decide⟩)
  obtain ⟨project, i, e, pr, -, he, hcustody, hartifact⟩ := (watch_custody (Mock.platform_lawful _)
    hreach Mock.belowMax_distinct Mock.twoRounds_seen Mock.repoHost 0 Mock.installDir Mock.depot
    Mock.twoRounds_run.2.1).resolve_left Mock.twoRounds_run.2.2
  exact ⟨_, _, i, e, pr, hreach, hcustody, he, hartifact⟩

end Verigov
