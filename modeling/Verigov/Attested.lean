import Verigov.Client
import Verigov.Registry

/-!
# What the client accepts

`Platform.attested` reads a document as an attestation. `Verified` lists what
holds of the document, of the binary and of the chain when the client's checks
pass, and `verify_eq_ok` says that nothing else is needed.
-/

namespace Verigov

open Path Hex

namespace Platform

variable {AccountId : Type} (P : Platform AccountId)

def u8aOf : Option Json → Option Bytes
  | none | some .null => some []
  | some (.string t) => some (P.hexToU8a t)
  | some _ => none

def digestOf : Option Json → Option Hash32
  | some (.string t) => if h : (P.hexToU8a t).length = 32 then some (.ofBytes _ h) else none
  | _ => none

def addressOf : Option Json → Option AccountId
  | some (.string t) => P.decodeAddress t
  | _ => none

def lowerOf : Option Json → Option Text
  | some (.string t) => some (P.toLowerCase t)
  | _ => none

def attested (doc : Json) : Option (BuildAttestation AccountId) := do
  let sourceCommitHash ← P.digestOf (doc.field "source_commit_hash".toList)
  let sourceTreeHash ← P.digestOf (doc.field "source_tree_hash".toList)
  let buildEnvironmentHash ← P.digestOf (doc.field "build_environment_hash".toList)
  let outputBinaryHash ← P.digestOf (doc.field "output_binary_hash".toList)
  let builder ← P.addressOf (doc.field "builder".toList)
  pure { sourceCommitHash, sourceTreeHash, buildEnvironmentHash, outputBinaryHash, builder }

def SignedIn (doc : Json) (A : BuildAttestation AccountId) : Prop :=
  ∃ raw, P.u8aOf (doc.field "builder_signature".toList) = some raw ∧
    P.sr25519Verify A.signingPayload raw A.builder = some true

end Platform

/-- The checks of steps 1 to 4, on a document that is the attestation `A`. -/
structure Verified {T : Config} (P : Platform T.AccountId) (host : Host) (s : State T) (p : Nat)
    (entry : ReleaseEntry) (d : Disk) (attBytes : Bytes) (doc : Json)
    (A : BuildAttestation T.AccountId) (binary : Bytes) : Prop where
  attFile : d.readFileSync host.cwd (join host.STORE_DIR (hex entry.attestationCid.toList)) =
    some attBytes
  attHash : P.sha256 attBytes = entry.attestationCid
  parsed : P.parse attBytes = some doc
  attested : P.attested doc = some A
  binaryText : P.lowerOf (doc.field "output_binary_hash".toList) =
    some (P.u8aToHex entry.outputBinaryHash.toList)
  commitText : P.lowerOf (doc.field "source_commit_hash".toList) =
    some (P.u8aToHex entry.sourceCommitHash.toList)
  builder : HasRole s p A.builder .buildService
  signed : P.SignedIn doc A
  binaryFile : d.readFileSync host.cwd (join host.STORE_DIR (hex entry.outputBinaryHash.toList)) =
    some binary
  binaryHash : P.sha256 binary = entry.outputBinaryHash

variable {T : Config} {P : Platform T.AccountId} {host : Host} {s : State T} {p : Nat}
  {entry : ReleaseEntry} {d d' : Disk} {doc : Json} {name : Text}

-- ---------------------------------------------------------------------------
-- Reading a document
-- ---------------------------------------------------------------------------

@[simp] theorem Json.get_eq_ok {v : Option Json} : doc.get name d = .ok v d' ↔
    doc ≠ .null ∧ doc.field name = v ∧ d = d' := by
  cases doc <;> simp [Json.get]

@[simp] theorem Platform.u8a_eq_ok {j : Option Json} {u8 : Bytes} :
    P.u8a j d = .ok u8 d' ↔ P.u8aOf j = some u8 ∧ d = d' := by
  unfold Platform.u8a Platform.u8aOf
  split <;> simp

@[simp] theorem Platform.address_eq_ok {j : Option Json} {a : T.AccountId} :
    P.address j d = .ok a d' ↔ P.addressOf j = some a ∧ d = d' := by
  unfold Platform.address Platform.addressOf
  split <;> simp

theorem Platform.lower_eq_ok {j : Option Json} {t : Text} :
    P.lower j d = .ok (some t) d' ↔ P.lowerOf j = some t ∧ d = d' := by
  rcases j with _ | (_ | _ | _ | _) <;> simp [lower, lowerOf]

theorem Platform.digestOf_eq_some {j : Option Json} {h : Hash32} :
    P.digestOf j = some h ↔ ∃ t, j = some (.string t) ∧ P.hexToU8a t = h.toList := by
  rcases j with _ | (_ | t | _ | _)
  case some.string =>
    simp only [digestOf, Option.some.injEq, Json.string.injEq, exists_eq_left']
    split
    · rw [Option.some.injEq]
      exact ⟨fun heq => by rw [← heq]; rfl, fun heq => List.Vector.eq _ _ heq⟩
    · rename_i hlen
      simp only [reduceCtorEq, false_iff]
      intro heq
      exact hlen (by rw [heq, List.Vector.toList_length])
  all_goals simp [digestOf]

theorem Platform.digestOf_of_u8a {j : Option Json} {u8 : Bytes} (h : P.u8aOf j = some u8)
    (hlen : u8.length = 32) : P.digestOf j = some (.ofBytes u8 hlen) := by
  rw [digestOf_eq_some]
  rcases j with _ | (_ | t | _ | _)
  case some.string => exact ⟨t, rfl, Option.some.inj h⟩
  all_goals
    cases h
    try cases hlen

theorem Platform.digest_eq_ok {h : Hash32} :
    P.digest doc name d = .ok h d' ↔ P.digestOf (doc.field name) = some h ∧ d = d' := by
  simp only [Platform.digest, Tool.bind_eq_ok, Json.get_eq_ok, u8a_eq_ok]
  constructor
  · rintro ⟨v, m, ⟨-, rfl, rfl⟩, u8, m, ⟨hu8, rfl⟩, hrun⟩
    split at hrun
    · rename_i hlen
      obtain ⟨rfl, rfl⟩ := Tool.pure_eq_ok.mp hrun
      exact ⟨digestOf_of_u8a hu8 hlen, rfl⟩
    · simp at hrun
  · rintro ⟨hd, rfl⟩
    obtain ⟨t, ht, hu8⟩ := digestOf_eq_some.mp hd
    have hnull : doc ≠ .null := by
      rintro rfl
      cases ht
    have hlen : (P.hexToU8a t).length = 32 := by rw [hu8, List.Vector.toList_length]
    refine ⟨_, d, ⟨hnull, rfl, rfl⟩, P.hexToU8a t, d, ⟨by rw [ht]; rfl, rfl⟩, ?_⟩
    rw [dif_pos hlen, Tool.pure_eq_ok]
    exact ⟨List.Vector.eq _ _ hu8, rfl⟩

theorem Platform.attested_eq_some {A : BuildAttestation T.AccountId} : P.attested doc = some A ↔
    P.digestOf (doc.field "source_commit_hash".toList) = some A.sourceCommitHash ∧
      P.digestOf (doc.field "source_tree_hash".toList) = some A.sourceTreeHash ∧
      P.digestOf (doc.field "build_environment_hash".toList) = some A.buildEnvironmentHash ∧
      P.digestOf (doc.field "output_binary_hash".toList) = some A.outputBinaryHash ∧
      P.addressOf (doc.field "builder".toList) = some A.builder := by
  simp only [attested, Option.bind_eq_bind, Option.bind_eq_some_iff, Option.pure_def,
    Option.some.injEq]
  constructor
  · rintro ⟨c, hc, t, ht, e, he, o, ho, b, hb, rfl⟩
    exact ⟨hc, ht, he, ho, hb⟩
  · rintro ⟨hc, ht, he, ho, hb⟩
    exact ⟨_, hc, _, ht, _, he, _, ho, _, hb, rfl⟩

theorem signingPayload_eq_ok {payload : Bytes} : signingPayload P doc d = .ok payload d' ↔
    (∃ c t e o, P.digestOf (doc.field "source_commit_hash".toList) = some c ∧
      P.digestOf (doc.field "source_tree_hash".toList) = some t ∧
      P.digestOf (doc.field "build_environment_hash".toList) = some e ∧
      P.digestOf (doc.field "output_binary_hash".toList) = some o ∧
      payload = BuildAttestation.signingPayload ⟨c, t, e, o, ()⟩) ∧ d = d' := by
  simp only [signingPayload, Tool.bind_eq_ok, Platform.digest_eq_ok, Tool.pure_eq_ok]
  constructor
  · rintro ⟨c, m, ⟨hc, rfl⟩, t, m, ⟨ht, rfl⟩, e, m, ⟨he, rfl⟩, o, m, ⟨ho, rfl⟩, rfl, rfl⟩
    exact ⟨⟨c, t, e, o, hc, ht, he, ho, rfl⟩, rfl⟩
  · rintro ⟨⟨c, t, e, o, hc, ht, he, ho, rfl⟩, rfl⟩
    exact ⟨c, d, ⟨hc, rfl⟩, t, d, ⟨ht, rfl⟩, e, d, ⟨he, rfl⟩, o, d, ⟨ho, rfl⟩, rfl, rfl⟩

theorem signingPayload_of_attested {A : BuildAttestation T.AccountId} (h : P.attested doc = some A)
    (d : Disk) : signingPayload P doc d = .ok A.signingPayload d := by
  obtain ⟨hc, ht, he, ho, -⟩ := Platform.attested_eq_some.mp h
  exact signingPayload_eq_ok.mpr ⟨⟨_, _, _, _, hc, ht, he, ho, rfl⟩, rfl⟩

-- ---------------------------------------------------------------------------
-- The checks
-- ---------------------------------------------------------------------------

theorem storeGet_onChain (hP : P.Lawful) (h : Hash32) {bytes : Bytes} :
    storeGet P.toHashing host (P.u8aToHex h.toList) d = .ok bytes d' ↔
      d.readFileSync host.cwd (join host.STORE_DIR (hex h.toList)) = some bytes ∧
        P.sha256 bytes = h ∧ d = d' := by
  have hstrip : strip0x (P.u8aToHex h.toList) = hex h.toList := by
    rw [hP.u8aToHex]
    rfl
  have hlower : P.toLowerCase (P.u8aToHex h.toList) = P.u8aToHex h.toList := by
    rw [hP.u8aToHex, hP.toLowerCase]
    simp
  rw [storeGet_eq_ok, hstrip, hlower, hP.sha256Hex_eq_iff]

theorem hasRole_iff_any {a : T.AccountId} {r : Role} :
    HasRole s p a r ↔ (s.stakeholders.get (p, a)).any (·.role == r) = true := by
  unfold HasRole
  cases s.stakeholders.get (p, a) <;> simp

theorem verify_eq_ok (hP : P.Lawful) {x : Bytes × Bytes} :
    verify P host s p entry d = .ok x d' ↔
      (∃ doc A, Verified P host s p entry d x.1 doc A x.2) ∧ d = d' := by
  simp only [verify, Tool.bind_eq_ok, storeGet_onChain hP, Tool.ofOption_eq_ok, Json.get_eq_ok,
    Tool.ensure_eq_ok, Platform.address_eq_ok, Platform.u8a_eq_ok, signingPayload_eq_ok,
    Tool.pure_eq_ok, beq_iff_eq]
  constructor
  · rintro ⟨attBytes, m, ⟨hatt, hattHash, rfl⟩, doc, m, ⟨hparse, rfl⟩, v, m, ⟨-, rfl, rfl⟩, h⟩
    obtain ⟨lo, m, hlo, -, m1, ⟨rfl, rfl⟩, h⟩ := h
    obtain ⟨hbinText, rfl⟩ := Platform.lower_eq_ok.mp hlo
    obtain ⟨v, m, ⟨-, rfl, rfl⟩, lc, m, hlc, -, m1, ⟨rfl, rfl⟩, h⟩ := h
    obtain ⟨hcomText, rfl⟩ := Platform.lower_eq_ok.mp hlc
    obtain ⟨v, m, ⟨-, rfl, rfl⟩, a, m, ⟨ha, rfl⟩, -, m, ⟨hrole, rfl⟩, h⟩ := h
    obtain ⟨payload, m, ⟨⟨c, t, e, o, hc, ht, he, ho, rfl⟩, rfl⟩, h⟩ := h
    obtain ⟨v, m, ⟨-, rfl, rfl⟩, raw, m, ⟨hraw, rfl⟩, ok, m, ⟨hsig, rfl⟩, -, m, ⟨rfl, rfl⟩, h⟩ := h
    obtain ⟨binary, m, ⟨hbin, hbinHash, rfl⟩, -, m, ⟨-, rfl⟩, rfl, rfl⟩ := h
    refine ⟨⟨doc, ⟨c, t, e, o, a⟩, ?_⟩, rfl⟩
    exact {
      attFile := hatt
      attHash := hattHash
      parsed := hparse
      attested := Platform.attested_eq_some.mpr ⟨hc, ht, he, ho, ha⟩
      binaryText := hbinText
      commitText := hcomText
      builder := hasRole_iff_any.mpr hrole
      signed := ⟨raw, hraw, hsig⟩
      binaryFile := hbin
      binaryHash := hbinHash }
  · rintro ⟨⟨doc, A, h⟩, rfl⟩
    obtain ⟨hc, ht, he, ho, ha⟩ := Platform.attested_eq_some.mp h.attested
    have hnull : doc ≠ .null := by
      rintro rfl
      cases ha
    obtain ⟨raw, hraw, hsig⟩ := h.signed
    have hhash : P.sha256Hex x.2 = P.u8aToHex entry.outputBinaryHash.toList := by
      rw [← h.binaryHash]
      rfl
    refine ⟨x.1, d, ⟨h.attFile, h.attHash, rfl⟩, doc, d, ⟨h.parsed, rfl⟩, _, d,
      ⟨hnull, rfl, rfl⟩, _, d, Platform.lower_eq_ok.mpr ⟨h.binaryText, rfl⟩, (), d, ⟨rfl, rfl⟩, ?_⟩
    refine ⟨_, d, ⟨hnull, rfl, rfl⟩, _, d, Platform.lower_eq_ok.mpr ⟨h.commitText, rfl⟩, (), d,
      ⟨rfl, rfl⟩, ?_⟩
    refine ⟨_, d, ⟨hnull, rfl, rfl⟩, A.builder, d, ⟨ha, rfl⟩, (), d,
      ⟨hasRole_iff_any.mp h.builder, rfl⟩, ?_⟩
    refine ⟨A.signingPayload, d, ⟨⟨_, _, _, _, hc, ht, he, ho, rfl⟩, rfl⟩, ?_⟩
    refine ⟨_, d, ⟨hnull, rfl, rfl⟩, raw, d, ⟨hraw, rfl⟩, true, d, ⟨hsig, rfl⟩, (), d,
      ⟨rfl, rfl⟩, ?_⟩
    exact ⟨x.2, d, ⟨h.binaryFile, h.binaryHash, rfl⟩, (), d, ⟨hhash, rfl⟩, rfl, rfl⟩

-- ---------------------------------------------------------------------------
-- What the texts mean
-- ---------------------------------------------------------------------------

/-- A digest whose text in lower case is the chain's text is the chain's digest:
a capital `X` would make it a byte longer. -/
theorem Platform.Lawful.digest_eq (hP : P.Lawful) {j : Option Json} {h h' : Hash32}
    (hlower : P.lowerOf j = some (P.u8aToHex h.toList)) (hdigest : P.digestOf j = some h') :
    h' = h := by
  obtain ⟨t, rfl, hu8⟩ := Platform.digestOf_eq_some.mp hdigest
  have hlen : (P.hexToU8a t).length = 32 := by rw [hu8, List.Vector.toList_length]
  have htext : t.map Char.toLower = '0' :: 'x' :: hex h.toList := by
    rw [hP.u8aToHex] at hlower
    exact (hP.toLowerCase t _).mp (Option.some.inj hlower)
  have hascii := ascii_of_lower htext
  obtain ⟨c, t, rfl, hc, htail⟩ := List.map_eq_cons_iff.mp htext
  obtain ⟨c', t, rfl, hc', hrest⟩ := List.map_eq_cons_iff.mp htail
  obtain rfl := eq_zero_of_lower hc
  rcases eq_x_of_lower hc' with rfl | rfl
  · rw [hP.hexToU8a t _ hrest] at hu8
    exact List.Vector.eq _ _ hu8.symm
  · have hcount := congrArg List.length hrest
    rw [List.length_map, length_hex, List.Vector.toList_length] at hcount
    have hstrip : strip0x ('0' :: 'X' :: t) = '0' :: 'X' :: t := rfl
    rw [hP.length_hexToU8a _ hascii, hstrip] at hlen
    simp only [List.length_cons] at hlen
    omega

theorem Verified.sourceCommitHash {A : BuildAttestation T.AccountId} {attBytes binary : Bytes}
    (hP : P.Lawful) (h : Verified P host s p entry d attBytes doc A binary) :
    A.sourceCommitHash = entry.sourceCommitHash :=
  hP.digest_eq h.commitText (Platform.attested_eq_some.mp h.attested).1

theorem Verified.outputBinaryHash {A : BuildAttestation T.AccountId} {attBytes binary : Bytes}
    (hP : P.Lawful) (h : Verified P host s p entry d attBytes doc A binary) :
    A.outputBinaryHash = entry.outputBinaryHash :=
  hP.digest_eq h.binaryText (Platform.attested_eq_some.mp h.attested).2.2.2.1

end Verigov
