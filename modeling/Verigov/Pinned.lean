import Verigov.Runtime
import Verigov.Provenance

/-!
# The document that was pinned

The chain takes the CID of an attestation as given, and the client takes
whatever the CID stands for. `PinsOwn` is what a proposer has to keep to: no
other attestation of the same commit and binary, signed by a build service of
the project, is the content of that CID. The client compares these two digests
and the signature only.
-/

namespace Verigov

open State Transition Path Hex

variable {T : Config} {P : Platform T.AccountId} {s s' : State T} {tr : Trace T} {p : Nat}

/-- An attestation that the client would take for `A`, from a document with that CID, is `A`. -/
def OwnDocument (P : Platform T.AccountId) (s : State T) (p : Nat)
    (A : BuildAttestation T.AccountId) (cid : Hash32) : Prop :=
  ∀ bytes doc B, P.sha256 bytes = cid → P.parse bytes = some doc → P.attested doc = some B →
    P.SignedIn doc B → HasRole s p B.builder .buildService →
    B.sourceCommitHash = A.sourceCommitHash → B.outputBinaryHash = A.outputBinaryHash → B = A

def PinsOwn (P : Platform T.AccountId) (s : State T) : Action T → Prop
  | .call _ (.newRelease projectId _ attestation attestationCid _) =>
    OwnDocument P s projectId attestation attestationCid
  | _ => True

-- ---------------------------------------------------------------------------
-- Roles
-- ---------------------------------------------------------------------------

theorem Step.hasRole_before (h : Step s a s') (hf : FreshProject s a)
    (hp : (s.projects.get p).isSome) {who : T.AccountId} {r : Role} (hr : HasRole s' p who r) :
    HasRole s p who r := by
  obtain ⟨x, hx, hrole⟩ := hr
  rcases h.registry with ⟨hst, -⟩ | ⟨_, _, _, _, _, _, s1, rfl, hs1, hst, -⟩ |
    ⟨_, id, _, pr, info, y, slashed, -, hsl⟩
  · exact ⟨x, by rw [← hst]; exact hx, hrole⟩
  · have hne : p ≠ s.nextProjectId := by
      rintro rfl
      rw [hf rfl] at hp
      cases hp
    rw [hst, (registerAll_other hs1 hne).1] at hx
    exact ⟨x, hx, hrole⟩
  · rw [hsl.stakeholders, StorageMap.get_insert] at hx
    split at hx
    · rename_i heq
      cases hx
      exact ⟨y, by rw [heq]; exact hsl.builder, hrole⟩
    · exact ⟨x, hx, hrole⟩

theorem OwnDocument.step (h : OwnDocument P s p A cid) (hst : Step s a s')
    (hf : FreshProject s a) (hp : (s.projects.get p).isSome) : OwnDocument P s' p A cid :=
  fun bytes doc B hcid hparse hatt hsig hrole =>
    h bytes doc B hcid hparse hatt hsig (hst.hasRole_before hf hp hrole)

-- ---------------------------------------------------------------------------
-- Every proposal
-- ---------------------------------------------------------------------------

def OwnDocuments (P : Platform T.AccountId) (s : State T) : Prop :=
  ∀ id pr, s.proposals.get id = some pr →
    OwnDocument P s pr.projectId pr.attestation pr.attestationCid

theorem Step.ownDocuments (h : Step s a s') (hf : FreshProject s a) (hpin : PinsOwn P s a)
    (hproj : HasProject s) (hs : OwnDocuments P s) : OwnDocuments P s' := by
  intro id pr hpr
  rcases h.proposal id with ⟨-, hp, -, -, -, -, -, -, -, hput⟩ | ⟨-, h1⟩ | ⟨pr0, status, h0, h1, -⟩
  · rw [hput] at hpr
    cases hpr
    exact OwnDocument.step hpin h hf (Option.isSome_iff_exists.mpr ⟨_, hp⟩)
  · rw [h1] at hpr
    cases hpr
  · rw [h1] at hpr
    cases hpr
    exact (hs id pr0 h0).step h hf (hproj id pr0 h0)

theorem Reaches.ownDocuments (h : Reaches tr s) (hf : Along FreshProject tr)
    (hpin : Along (PinsOwn P) tr) : OwnDocuments P s := by
  refine h.induct (I := fun _ t => OwnDocuments P t) (hf.and hpin) ?_ ?_
  · rintro s0 ⟨n, b, rfl, -⟩ id pr hpr
    simp at hpr
  · intro tr m a t hm _ hst hstep hs
    exact hst.ownDocuments hstep.1 hstep.2 hm.hasProject hs

-- ---------------------------------------------------------------------------
-- The client
-- ---------------------------------------------------------------------------

/-- In a run whose proposers pin their own attestations, and whose ids are not
used up, the client installs an entry only on the attestation that the vote was
about, and has checked the signature over the payload that the chain did. -/
theorem accepted_is_voted (hP : P.Lawful) (h : Reaches tr s) (hf : Along FreshProposal tr)
    (hf' : Along FreshProject tr) (hpin : Along (PinsOwn P) tr)
    (he : s.releaseLog.get (p, i) = some e) (host : Host) (projectName installDir : Text)
    (d : Disk) (hrun : verifyAndInstall P host s p projectName e installDir d = .ok r d') :
    ∃ pr bytes doc, s.proposals.get e.proposalId = some pr ∧
      storeGet P.toHashing host (P.u8aToHex e.attestationCid.toList) d = .ok bytes d ∧
      P.parse bytes = some doc ∧ P.attested doc = some pr.attestation ∧
      signingPayload P doc d = .ok pr.attestation.signingPayload d := by
  obtain ⟨bytes, binary, doc, A, hv, -, -⟩ := (verifyAndInstall_eq_ok hP).mp hrun
  obtain ⟨pr, hpr, hrec⟩ := (h.logSound hf).entry p i e he
  have hcommit : A.sourceCommitHash = pr.attestation.sourceCommitHash := by
    rw [hv.sourceCommitHash hP, hrec.sourceCommitHash]
  have hbinary : A.outputBinaryHash = pr.attestation.outputBinaryHash := by
    rw [hv.outputBinaryHash hP, hrec.outputBinaryHash]
  have hcid : P.sha256 bytes = pr.attestationCid := by rw [hv.attHash, hrec.attestationCid]
  have hrole : HasRole s pr.projectId A.builder .buildService := hrec.project ▸ hv.builder
  obtain rfl := h.ownDocuments hf' hpin _ pr hpr bytes doc A hcid hv.parsed hv.attested hv.signed
    hrole hcommit hbinary
  exact ⟨pr, bytes, doc, hpr, (storeGet_onChain hP _).mpr ⟨hv.attFile, hv.attHash, rfl⟩, hv.parsed,
    hv.attested, signingPayload_of_attested hv.attested d⟩

-- ---------------------------------------------------------------------------
-- Runs
-- ---------------------------------------------------------------------------

namespace Mock

/-- Two builds of one binary, of the same commit, from different trees. -/
def voted : BuildAttestation Nat := built 8 0x51 [0x76]

def other : BuildAttestation Nat := built 8 0x52 [0x76]

def pinned (A : BuildAttestation Nat) : Bytes := stringify (document A)

def pinning (A : BuildAttestation Nat) : List (List (Action Chain)) :=
  [bless ⟨[0x32], by decide⟩ voted (Sha256.sha256 (pinned A)) .sr25519]

theorem ownDocument_voted (s : State Chain) (cid : Hash32) :
    OwnDocument (platform [document voted]) s 0 voted cid := by
  intro bytes doc B _ hparse hatt _ _ _ _
  have hdoc : (platform [document voted]).attested
      (.object ((document voted).map fun f => (f.1, .string f.2))) = some voted := by
    decide +kernel
  obtain ⟨fields, hfind, rfl⟩ := Option.map_eq_some_iff.mp hparse
  have hfields := List.mem_singleton.mp (List.mem_of_find?_eq_some hfind)
  rw [hfields, hdoc] at hatt
  exact (Option.some.inj hatt).symm

end Mock

theorem accepted_is_voted_own :
    let s := Mock.blessed (Mock.pinning Mock.voted)
    let P := Mock.platform [Mock.document Mock.voted]
    ∃ e pr doc, s.releaseLog.get (0, 0) = some e ∧ s.proposals.get e.proposalId = some pr ∧
      P.attested doc = some pr.attestation := by
  intro s P
  have hrun : ((s.releaseLog.get (0, 0)).bind fun e => Tool.returned (verifyAndInstall P
      Mock.repoHost s 0 "a".toList e Mock.installDir
      (Mock.stocked [Mock.pinned Mock.voted, [0x76]]))).isSome = true := by
    decide +kernel
  obtain ⟨r, hr⟩ := Option.isSome_iff_exists.mp hrun
  obtain ⟨e, he, hr⟩ := Option.bind_eq_some_iff.mp hr
  obtain ⟨d', hd⟩ := Tool.exists_of_returned hr
  have hpin : Along (PinsOwn P) _ := (exec_along (P := fun a => ∀ m, PinsOwn P m a)
    (Mock.exec_blessed (Mock.pinning Mock.voted)) (by
      intro a ha m
      rcases List.mem_cons.mp ha with rfl | ha
      · trivial
      rcases List.mem_cons.mp ha with rfl | ha
      · exact Mock.ownDocument_voted m _
      · obtain rfl := List.mem_singleton.mp ha
        trivial)).mono fun m a h => h m
  obtain ⟨pr, _, doc, hpr, -, -, hatt, -⟩ := accepted_is_voted (Mock.platform_lawful _)
    (Mock.reaches_blessed (Mock.pinning Mock.voted)) (by decide +kernel) (by decide +kernel) hpin he
    Mock.repoHost "a".toList Mock.installDir _ hd
  exact ⟨e, pr, doc, he, hpr, hatt⟩

/-- A proposer who pins the other build has the client accept it. -/
theorem accepts_another_attestation :
    let s := Mock.blessed (Mock.pinning Mock.other)
    let P := Mock.platform [Mock.document Mock.voted, Mock.document Mock.other]
    let d := Mock.stocked [Mock.pinned Mock.other, [0x76]]
    Reachable s ∧ ∃ e pr r bytes doc, s.releaseLog.get (0, 0) = some e ∧
      s.proposals.get e.proposalId = some pr ∧
      Tool.returned (verifyAndInstall P Mock.repoHost s 0 "a".toList e Mock.installDir d) = some r ∧
      Tool.returned (storeGet P.toHashing Mock.repoHost (P.u8aToHex e.attestationCid.toList) d) =
        some bytes ∧
      P.parse bytes = some doc ∧ P.attested doc ≠ some pr.attestation := by
  intro s P d
  have hrun : ((s.releaseLog.get (0, 0)).bind fun e =>
      (s.proposals.get e.proposalId).bind fun pr =>
      (Tool.returned (verifyAndInstall P Mock.repoHost s 0 "a".toList e Mock.installDir d)).bind
        fun _ => (Tool.returned (storeGet P.toHashing Mock.repoHost
          (P.u8aToHex e.attestationCid.toList) d)).bind fun bytes =>
      (P.parse bytes).map fun doc => decide (P.attested doc = some pr.attestation)) =
        some false := by
    decide +kernel
  obtain ⟨e, he, hrun⟩ := Option.bind_eq_some_iff.mp hrun
  obtain ⟨pr, hpr, hrun⟩ := Option.bind_eq_some_iff.mp hrun
  obtain ⟨r, hr, hrun⟩ := Option.bind_eq_some_iff.mp hrun
  obtain ⟨bytes, hbytes, hrun⟩ := Option.bind_eq_some_iff.mp hrun
  obtain ⟨doc, hdoc, hne⟩ := Option.map_eq_some_iff.mp hrun
  exact ⟨⟨_, Mock.reaches_blessed _⟩, e, pr, r, bytes, doc, he, hpr, hr, hbytes, hdoc,
    of_decide_eq_false hne⟩

end Verigov
