import Verigov.Closed
import Verigov.Provenance
import Verigov.Runtime

/-!
# Blessed releases

A blessed release whose artifacts are in the store should install. The chain
takes signatures in every scheme of its `MultiSignature`; the client knows one.
-/

namespace Verigov

open State Transition Path Hex

/-- The field is a text of `0x` and the bytes' digits, in either letter case. -/
def HexField (doc : Json) (name : Text) (bytes : Bytes) : Prop :=
  ∃ t, doc.field name = some (.string ('0' :: 'x' :: t)) ∧ t.map Char.toLower = hex bytes

structure Carries (P : Platform AccountId) (doc : Json) (A : BuildAttestation AccountId)
    (raw : Bytes) : Prop where
  sourceCommitHash : HexField doc "source_commit_hash".toList A.sourceCommitHash.toList
  sourceTreeHash : HexField doc "source_tree_hash".toList A.sourceTreeHash.toList
  buildEnvironmentHash : HexField doc "build_environment_hash".toList A.buildEnvironmentHash.toList
  outputBinaryHash : HexField doc "output_binary_hash".toList A.outputBinaryHash.toList
  builder : ∃ t, doc.field "builder".toList = some (.string t) ∧ P.decodeAddress t = some A.builder
  signature : HexField doc "builder_signature".toList raw

/-- The store has an artifact with that hash. -/
structure Stored (P : Platform AccountId) (host : Host) (d : Disk) (cid : Hash32)
    (bytes : Bytes) : Prop where
  file : d.readFileSync host.cwd (join host.STORE_DIR (hex cid.toList)) = some bytes
  hash : P.sha256 bytes = cid

section

variable {T : Config} {P : Platform T.AccountId} {s : State T} {host : Host} {d : Disk}
  {e : ReleaseEntry} {A : BuildAttestation T.AccountId} {attBytes binary raw : Bytes} {doc : Json}
  {name : Text}

theorem HexField.digestOf (hP : P.Lawful) {h : Hash32} (hf : HexField doc name h.toList) :
    P.digestOf (doc.field name) = some h := by
  obtain ⟨t, hfield, hlower⟩ := hf
  exact Platform.digestOf_eq_some.mpr ⟨_, hfield, hP.hexToU8a t _ hlower⟩

theorem HexField.lowerOf (hP : P.Lawful) {bytes : Bytes} (hf : HexField doc name bytes) :
    P.lowerOf (doc.field name) = some (P.u8aToHex bytes) := by
  obtain ⟨t, hfield, hlower⟩ := hf
  rw [hfield, hP.u8aToHex]
  exact congrArg some ((hP.toLowerCase _ _).mpr (by simp [hlower]))

theorem Carries.attested (hP : P.Lawful) (h : Carries P doc A raw) : P.attested doc = some A := by
  obtain ⟨t, hfield, haddress⟩ := h.builder
  refine Platform.attested_eq_some.mpr ⟨h.sourceCommitHash.digestOf hP,
    h.sourceTreeHash.digestOf hP, h.buildEnvironmentHash.digestOf hP,
    h.outputBinaryHash.digestOf hP, ?_⟩
  rw [hfield]
  exact haddress

theorem Carries.signedIn_iff (hP : P.Lawful) (h : Carries P doc A raw) : P.SignedIn doc A ↔
    P.sr25519Verify A.signingPayload raw A.builder = some true := by
  obtain ⟨t, hfield, hlower⟩ := h.signature
  have hraw : P.u8aOf (doc.field "builder_signature".toList) = some raw := by
    rw [hfield]
    exact congrArg some (hP.hexToU8a t raw hlower)
  unfold Platform.SignedIn
  rw [hraw]
  simp

-- ---------------------------------------------------------------------------
-- The client
-- ---------------------------------------------------------------------------

theorem verified_iff (hP : P.Lawful) (hatt : Stored P host d e.attestationCid attBytes)
    (hbin : Stored P host d e.outputBinaryHash binary) (hparse : P.parse attBytes = some doc)
    (hdoc : Carries P doc A raw) (hcommit : A.sourceCommitHash = e.sourceCommitHash)
    (hbinary : A.outputBinaryHash = e.outputBinaryHash) :
    (∃ bytes bin doc' A', Verified P host s p e d bytes doc' A' bin) ↔
      HasRole s p A.builder .buildService ∧
        P.sr25519Verify A.signingPayload raw A.builder = some true := by
  constructor
  · rintro ⟨bytes, bin, doc', A', hv⟩
    obtain rfl : attBytes = bytes := Option.some.inj (hatt.file.symm.trans hv.attFile)
    obtain rfl : doc = doc' := Option.some.inj (hparse.symm.trans hv.parsed)
    obtain rfl : A = A' := Option.some.inj ((hdoc.attested hP).symm.trans hv.attested)
    exact ⟨hv.builder, (hdoc.signedIn_iff hP).mp hv.signed⟩
  · rintro ⟨hrole, hsig⟩
    exact ⟨attBytes, binary, doc, A, {
      attFile := hatt.file
      attHash := hatt.hash
      parsed := hparse
      attested := hdoc.attested hP
      binaryText := hbinary ▸ hdoc.outputBinaryHash.lowerOf hP
      commitText := hcommit ▸ hdoc.sourceCommitHash.lowerOf hP
      builder := hrole
      signed := (hdoc.signedIn_iff hP).mpr hsig
      binaryFile := hbin.file
      binaryHash := hbin.hash }⟩

theorem installs_iff (hP : P.Lawful) (hbin : Stored P host d e.outputBinaryHash binary)
    (projectName installDir : Text) :
    (∃ r d', verifyAndInstall P host s p projectName e installDir d = .ok r d' ∧
      d'.node (resolve host.cwd (targetOf P installDir projectName e)) = some (.file binary)) ↔
      (∃ bytes bin doc A, Verified P host s p e d bytes doc A bin) ∧
        Installable host d installDir (targetOf P installDir projectName e) := by
  simp only [verifyAndInstall_eq_ok hP]
  constructor
  · rintro ⟨r, d', ⟨bytes, bin, doc, A, hv, hinst, -⟩, -⟩
    exact ⟨⟨bytes, bin, doc, A, hv⟩, install_returns_iff.mp ⟨d', hinst⟩⟩
  · rintro ⟨⟨bytes, bin, doc, A, hv⟩, hinst⟩
    obtain rfl : binary = bin := Option.some.inj (hbin.file.symm.trans hv.binaryFile)
    obtain ⟨d', hinst⟩ := install_returns_iff.mpr hinst
    exact ⟨_, d', ⟨bytes, binary, doc, A, hv, hinst, rfl⟩,
      (install_places (installTarget_ne_nil _ _ _) hinst).binaryFile⟩

end

-- ---------------------------------------------------------------------------
-- The chain
-- ---------------------------------------------------------------------------

section

variable {T : Config} {s m n : State T} {tr : Trace T} {p v : Nat}

/-- What a `new_release` of the run filed is in storage, in whatever status. -/
theorem Reaches.filed (h : Reaches tr s) (hf : Along FreshProposal tr)
    (hx : (m, Action.call (.signed who) (.newRelease p version A cid sig), n) ∈ stepsOf tr s) :
    T.verify sig A.signingPayload A.builder = true ∧
      ∃ pr, s.proposals.get m.nextProposalId = some pr ∧ pr.projectId = p ∧
        pr.attestation = A ∧ pr.attestationCid = cid ∧ pr.version = version := by
  refine h.induct (I := fun tr t => (m, _, n) ∈ stepsOf tr t → T.verify sig _ _ = true ∧
    ∃ pr, t.proposals.get m.nextProposalId = some pr ∧ pr.projectId = p ∧
      pr.attestation = A ∧ pr.attestationCid = cid ∧ pr.version = version) hf ?_ ?_ hx
  · intro s0 _ hx
    cases hx
  · intro tr k a t _ _ hst hfresh ih hx
    rw [stepsOf_snoc, List.mem_append, List.mem_singleton] at hx
    rcases hx with hx | heq
    · obtain ⟨hv, pr, hpr, hdata⟩ := ih hx
      obtain ⟨status, hget, -⟩ := hst.kept hfresh hpr
      exact ⟨hv, _, hget, hdata⟩
    · simp only [Prod.mk.injEq] at heq
      obtain ⟨rfl, rfl, rfl⟩ := heq
      cases hst with
      | call _ _ hcall =>
        cases newRelease_filed hcall with
        | mk _ _ _ _ _ _ hv _ _ hput => exact ⟨hv, _, hput, rfl, rfl, rfl, rfl⟩

end

/-- The client's check is the chain's of one scheme, and takes no signature of another. -/
structure Agrees (P : Platform AccountId) (S : Schemes AccountId) : Prop where
  sr25519 : ∀ message raw who, P.sr25519Verify message raw who = some true ↔
    S.check S.sr25519 raw message who = true
  others : ∀ scheme message raw who, scheme ≠ S.sr25519 → S.check scheme raw message who = true →
    P.sr25519Verify message raw who ≠ some true

namespace Mock

def candidate : BuildAttestation Nat := built 8 0x53 [0x77]

def signature (scheme : Scheme) : Bytes :=
  rawSignature scheme candidate.builder candidate.signingPayload

def documentBy (scheme : Scheme) : List (Text × Text) :=
  (document candidate).take 5 ++ [("builder_signature".toList, prefixed (signature scheme))]

def candidateCid (scheme : Scheme) : Hash32 := Sha256.sha256 (stringify (documentBy scheme))

def blessing (scheme : Scheme) : Action Chain :=
  .call (.signed 1)
    (.newRelease 0 ⟨[0x33], by decide⟩ candidate (candidateCid scheme) ⟨scheme, signature scheme⟩)

def signedBy (scheme : Scheme) : List (List (Action Chain)) := [[blessing scheme, .block]]

theorem signedBy_isSome (scheme : Scheme) :
    (exec (found :: (signedBy scheme).flatten) launch).isSome := by
  cases scheme <;> decide +kernel

def signedState (scheme : Scheme) : State Chain :=
  blessed (signedBy scheme) (signedBy_isSome scheme)

def shelf (scheme : Scheme) : Disk := stocked [stringify (documentBy scheme), [0x77]]

theorem platform_agrees (documents : List (List (Text × Text))) :
    Agrees (platform documents) schemes where
  sr25519 message raw who := by
    show (if raw.length = 64 then some (raw == rawSignature .sr25519 who message) else none) = _ ↔
      (raw == rawSignature .sr25519 who message) = true
    split
    · simp
    · rename_i hlen
      simp only [reduceCtorEq, false_iff, beq_iff_eq]
      rintro rfl
      simp [rawSignature] at hlen
  others scheme message raw who hne hcheck := by
    obtain rfl : raw = rawSignature scheme who message := beq_iff_eq.mp hcheck
    have htag : rawSignature scheme who message ≠ rawSignature .sr25519 who message := by
      cases scheme with
      | sr25519 => exact absurd rfl hne
      | _ => simp [rawSignature, Scheme.tag]
    show (if (rawSignature scheme who message).length = 64 then
      some (rawSignature scheme who message == rawSignature .sr25519 who message)
      else none) ≠ some true
    split
    · simpa using htag
    · simp

theorem hexField_prefixed (bytes : Bytes)
    (hf : doc.field name = some (.string (prefixed bytes))) : HexField doc name bytes :=
  ⟨Hex.hex bytes, hf, Hex.lower_hex bytes⟩

def parsedBy (scheme : Scheme) : Json :=
  .object ((documentBy scheme).map fun f => (f.1, .string f.2))

theorem carries_parsedBy (documents : List (List (Text × Text))) (scheme : Scheme) :
    Carries (platform documents) (parsedBy scheme) candidate (signature scheme) where
  sourceCommitHash := hexField_prefixed _ rfl
  sourceTreeHash := hexField_prefixed _ rfl
  buildEnvironmentHash := hexField_prefixed _ rfl
  outputBinaryHash := hexField_prefixed _ rfl
  builder := by
    refine ⟨_, rfl, ?_⟩
    show (platform []).decodeAddress (prefixed (Sha256.bigEndian 32 candidate.builder)) = _
    decide +kernel
  signature := hexField_prefixed _ rfl

structure Blessing (scheme : Scheme) (tr : Trace Chain) (s m n : State Chain)
    (e : ReleaseEntry) : Prop where
  reaches : Reaches tr s
  fresh : Along FreshProposal tr
  accepted : (m, blessing scheme, n) ∈ stepsOf tr s
  logged : s.releaseLog.get (0, 0) = some e
  version : e.version.val = [0x33]
  proposal : e.proposalId = m.nextProposalId
  attestation : Stored (platform [documentBy scheme]) repoHost (shelf scheme) e.attestationCid
    (stringify (documentBy scheme))
  parsed : (platform [documentBy scheme]).parse (stringify (documentBy scheme)) =
    some (parsedBy scheme)
  binary : Stored (platform [documentBy scheme]) repoHost (shelf scheme) e.outputBinaryHash [0x77]

theorem signedState_facts (scheme : Scheme) :
    ((signedState scheme).releaseLog.get (0, 0)).map (·.proposalId) = some 0 ∧
      ProposalIdsBelowMax (signedState scheme) ∧
      ∀ e ∈ (signedState scheme).proposals.toFinmap.entries, e.1 = 0 := by
  cases scheme <;> decide +kernel

theorem shelf_facts (scheme : Scheme) :
    (shelf scheme).readFileSync repoHost.cwd
        (join repoHost.STORE_DIR (Hex.hex (candidateCid scheme).toList)) =
      some (stringify (documentBy scheme)) ∧
    (shelf scheme).readFileSync repoHost.cwd
        (join repoHost.STORE_DIR (Hex.hex (Sha256.sha256 [0x77]).toList)) = some [0x77] ∧
    (Tool.returned (install repoHost installDir
      (installTarget installDir "a".toList "3".toList) [] [] (shelf scheme))).isSome := by
  cases scheme <;> decide +kernel

theorem installable_shelf (scheme : Scheme) : Installable repoHost (shelf scheme) installDir
    (installTarget installDir "a".toList "3".toList) := by
  obtain ⟨u, hu⟩ := Option.isSome_iff_exists.mp (shelf_facts scheme).2.2
  exact install_returns_iff.mp (Tool.exists_of_returned hu)

theorem exists_blessing (scheme : Scheme) :
    ∃ tr m n e, Blessing scheme tr (signedState scheme) m n e := by
  obtain ⟨hlog, hmax, hids⟩ := signedState_facts scheme
  have hkey := StorageMap.forall_keys (P := (· = 0)) |>.mp hids
  have hreach := reaches_blessed (signedBy scheme) (signedBy_isSome scheme)
  have hfresh := (hreach.freshProposal hmax).1
  have hmem : blessing scheme ∈ found :: (signedBy scheme).flatten := by simp [signedBy]
  rw [← exec_actions (exec_blessed (signedBy scheme) (signedBy_isSome scheme))] at hmem
  obtain ⟨x, hx, haction⟩ := List.mem_map.mp hmem
  obtain ⟨n, hn⟩ := exists_mem_stepsOf (signedState scheme) hx
  rw [haction] at hn
  obtain ⟨e, he, hid⟩ := Option.map_eq_some_iff.mp hlog
  obtain ⟨-, pr, hpr, -, hatt, hcid, hversion⟩ := hreach.filed hfresh hn
  have hnext : e.proposalId = x.1.nextProposalId :=
    hid.trans (hkey _ (Option.isSome_iff_exists.mpr ⟨pr, hpr⟩)).symm
  obtain ⟨pr', hpr', hrec⟩ := (hreach.logSound hfresh).entry 0 0 e he
  obtain rfl : pr = pr' := Option.some.inj (hpr.symm.trans (hnext ▸ hpr'))
  exact ⟨_, x.1, n, e, {
    reaches := hreach
    fresh := hfresh
    accepted := hn
    logged := he
    version := by rw [← hrec.version, hversion]
    proposal := hnext
    attestation := by
      rw [← hrec.attestationCid, hcid]
      exact ⟨(shelf_facts scheme).1, rfl⟩
    parsed := by simp [platform, parsedBy]
    binary := by
      rw [← hrec.outputBinaryHash, hatt]
      exact ⟨(shelf_facts scheme).2.1, rfl⟩ }⟩

end Mock

end Verigov
