import Verigov.Runtime
import Verigov.Lib.Layout

/-!
# The signed payload

The pallet copies four digests to offsets that are written out; the tools decode
four fields and set them in a loop. Both give the digests one after the other
(`signingPayload_eq_flatten`, `signingPayload_eq_loop`), so the two payloads
agree and each digest can be told from it.
-/

namespace Verigov

open Hex Layout

def BuildAttestation.digests (A : BuildAttestation AccountId) : List Hash32 :=
  [A.sourceCommitHash, A.sourceTreeHash, A.buildEnvironmentHash, A.outputBinaryHash]

def digestFields : List Text :=
  ["source_commit_hash".toList, "source_tree_hash".toList, "build_environment_hash".toList,
    "output_binary_hash".toList]

def Platform.part (P : Platform AccountId) (att : Json) (name : Text) : Tool Bytes := do
  let h ← att.get name
  let u8 ← P.u8a h
  Tool.ensure (u8.length == 32) ("hash ".toList ++ P.interpolate h ++ " is not 32 bytes".toList)
  return u8

/-- `parts.forEach((p, i) => out.set(p, i * 32))`; `set` throws where a part does not fit. -/
def setParts (parts : List Bytes) : Option Bytes := putFrom 32 0 parts (List.replicate 128 0)

/-- The bytes' digits in either letter case, with `0x` or without. -/
def HexText (t : Text) (bytes : Bytes) : Prop := (strip0x t).map Char.toLower = hex bytes

instance (t : Text) (bytes : Bytes) : Decidable (HexText t bytes) :=
  inferInstanceAs (Decidable (_ = _))

def Platform.DecodesHex (P : Platform AccountId) : Prop :=
  ∀ t bytes, HexText t bytes → P.hexToU8a t = bytes

def DigestField (doc : Json) (name : Text) (h : Hash32) : Prop :=
  ∃ t, doc.field name = some (.string t) ∧ HexText t h.toList

structure HasDigests (doc : Json) (A : BuildAttestation AccountId) : Prop where
  sourceCommitHash : DigestField doc "source_commit_hash".toList A.sourceCommitHash
  sourceTreeHash : DigestField doc "source_tree_hash".toList A.sourceTreeHash
  buildEnvironmentHash : DigestField doc "build_environment_hash".toList A.buildEnvironmentHash
  outputBinaryHash : DigestField doc "output_binary_hash".toList A.outputBinaryHash

-- ---------------------------------------------------------------------------
-- The pallet
-- ---------------------------------------------------------------------------

section

variable {A B : BuildAttestation AccountId}

theorem copyFromSlice_eq_write (lo : Nat) (src : Hash32) (out : List UInt8) :
    copyFromSlice lo src out = write lo src.toList out := by
  rw [copyFromSlice, write, List.Vector.toList_length]

theorem length_digest {hs : List Hash32} :
    ∀ part ∈ hs.map List.Vector.toList, part.length = 32 := by
  intro part hpart
  obtain ⟨h, -, rfl⟩ := List.mem_map.mp hpart
  exact h.toList_length

theorem BuildAttestation.signingPayload_eq_flatten (A : BuildAttestation AccountId) :
    A.signingPayload = (A.digests.map List.Vector.toList).flatten := by
  have hwrites : A.signingPayload =
      writeFrom 32 0 (A.digests.map List.Vector.toList) (List.replicate 128 0) := by
    simp only [signingPayload, copyFromSlice_eq_write]
    rfl
  rw [hwrites, writeFrom_eq_flatten length_digest (by simp [digests])]

theorem BuildAttestation.length_signingPayload (A : BuildAttestation AccountId) :
    A.signingPayload.length = 128 := by
  simp [signingPayload_eq_flatten, digests]

theorem BuildAttestation.signingPayload_inj :
    A.signingPayload = B.signingPayload ↔ A.digests = B.digests := by
  rw [signingPayload_eq_flatten, signingPayload_eq_flatten,
    flatten_inj length_digest length_digest (by simp [digests])]
  exact List.map_inj_right fun _ _ h => List.Vector.eq _ _ h

theorem BuildAttestation.eq_of_digests (hd : A.digests = B.digests) (hb : A.builder = B.builder) :
    A = B := by
  cases A
  cases B
  simp only [digests, List.cons.injEq, and_true] at hd
  obtain ⟨rfl, rfl, rfl, rfl⟩ := hd
  cases hb
  rfl

end

-- ---------------------------------------------------------------------------
-- The tools
-- ---------------------------------------------------------------------------

section

variable {T : Config} {P : Platform T.AccountId} {doc doc' : Json} {name : Text} {d d' : Disk}
  {A : BuildAttestation T.AccountId}

theorem Platform.part_eq (P : Platform T.AccountId) (doc : Json) (name : Text) :
    P.part doc name = P.digest doc name >>= fun h => pure h.toList := by
  unfold part digest
  simp only [bind_assoc]
  refine bind_congr fun h => bind_congr fun u8 => ?_
  by_cases hlen : u8.length = 32
  · simp [Tool.ensure, hlen]
  · simp only [Tool.ensure, hlen, beq_iff_eq, ↓reduceIte, ↓reduceDIte]
    rfl

theorem setParts_eq (hs : List Hash32) (hcount : hs.length = 4) :
    setParts (hs.map List.Vector.toList) = some (hs.map List.Vector.toList).flatten :=
  putFrom_eq_flatten length_digest (by simp [hcount])

/-- `signingPayload` is the `map` of the source and then its `forEach`. -/
theorem signingPayload_eq_loop (P : Platform T.AccountId) (doc : Json) :
    signingPayload P doc =
      digestFields.mapM (P.part doc) >>= fun parts => Tool.ofOption (setParts parts) := by
  have hset (c t e o : Hash32) : Tool.ofOption
      (setParts [c.toList, t.toList, e.toList, o.toList]) =
        pure (BuildAttestation.signingPayload ⟨c, t, e, o, ()⟩) := by
    rw [BuildAttestation.signingPayload_eq_flatten]
    exact congrArg Tool.ofOption (setParts_eq [c, t, e, o] rfl)
  simp only [digestFields, List.mapM_cons, List.mapM_nil, Platform.part_eq, bind_assoc, pure_bind,
    hset]
  rfl

theorem DigestField.part (hP : P.DecodesHex) {h : Hash32} (hf : DigestField doc name h)
    (d : Disk) : P.part doc name d = .ok h.toList d := by
  obtain ⟨t, ht, htext⟩ := hf
  have hdigest : P.digestOf (doc.field name) = some h :=
    Platform.digestOf_eq_some.mpr ⟨t, ht, hP t _ htext⟩
  rw [Platform.part_eq, Tool.bind_run, Platform.digest_eq_ok.mpr ⟨hdigest, rfl⟩]
  rfl

theorem HasDigests.signingPayload (hP : P.DecodesHex) (h : HasDigests doc A) (d : Disk) :
    Verigov.signingPayload P doc d = .ok A.signingPayload d := by
  have hparts : List.Forall₂ (fun name part => P.part doc name d = .ok part d) digestFields
      (A.digests.map List.Vector.toList) :=
    .cons (h.sourceCommitHash.part hP d) (.cons (h.sourceTreeHash.part hP d)
      (.cons (h.buildEnvironmentHash.part hP d) (.cons (h.outputBinaryHash.part hP d) .nil)))
  rw [signingPayload_eq_loop, Tool.bind_run, Tool.mapM_run hparts, A.signingPayload_eq_flatten]
  dsimp only
  rw [setParts_eq A.digests rfl]
  rfl

theorem Platform.digestOf_iff {j : Option Json} : (∃ h, P.digestOf j = some h) ↔
    ∃ u8, P.u8aOf j = some u8 ∧ u8.length = 32 := by
  constructor
  · rintro ⟨h, hd⟩
    obtain ⟨t, rfl, hu8⟩ := digestOf_eq_some.mp hd
    exact ⟨_, rfl, by rw [hu8, h.toList_length]⟩
  · rintro ⟨u8, hu8, hlen⟩
    exact ⟨_, digestOf_of_u8a hu8 hlen⟩

theorem signingPayload_returns_iff : (∃ payload, signingPayload P doc d = .ok payload d) ↔
    ∀ name ∈ digestFields, ∃ u8, P.u8aOf (doc.field name) = some u8 ∧ u8.length = 32 := by
  simp only [← Platform.digestOf_iff, digestFields, List.forall_mem_cons]
  constructor
  · rintro ⟨payload, hrun⟩
    obtain ⟨⟨c, t, e, o, hc, ht, he, ho, -⟩, -⟩ := signingPayload_eq_ok.mp hrun
    exact ⟨⟨c, hc⟩, ⟨t, ht⟩, ⟨e, he⟩, ⟨o, ho⟩, by simp⟩
  · rintro ⟨⟨c, hc⟩, ⟨t, ht⟩, ⟨e, he⟩, ⟨o, ho⟩, -⟩
    exact ⟨_, signingPayload_eq_ok.mpr ⟨⟨c, t, e, o, hc, ht, he, ho, rfl⟩, rfl⟩⟩

theorem signingPayload_throws_iff : (∃ e, signingPayload P doc d = .error e d) ↔
    ∃ name ∈ digestFields, ¬ ∃ u8, P.u8aOf (doc.field name) = some u8 ∧ u8.length = 32 := by
  have hreturns : (∃ payload, signingPayload P doc d = .ok payload d) ↔ _ :=
    signingPayload_returns_iff
  have hleft : Tool.left (signingPayload P doc d) = d := reads_signingPayload doc d
  cases hrun : signingPayload P doc d with
  | ok payload m =>
    rw [hrun] at hleft hreturns
    obtain rfl : m = d := hleft
    have hall := hreturns.mp ⟨payload, rfl⟩
    simpa using hall
  | error e m =>
    rw [hrun] at hleft hreturns
    obtain rfl : m = d := hleft
    have hbad : ¬ ∀ name ∈ digestFields,
        ∃ u8, P.u8aOf (doc.field name) = some u8 ∧ u8.length = 32 := by
      rw [← hreturns]
      simp
    exact iff_of_true ⟨e, rfl⟩ (by simpa using hbad)

theorem Platform.u8a_raises {j : Option Json} {e : Thrown} (h : P.u8a j d = .error e d') :
    e = .raised := by
  rcases j with _ | (_ | _ | _ | _) <;> cases h <;> rfl

theorem Platform.part_error {message : Text}
    (h : P.part doc name d = .error (.error message) d') :
    P.digestOf (doc.field name) = none ∧ message =
      "hash ".toList ++ P.interpolate (doc.field name) ++ " is not 32 bytes".toList := by
  have hnone : P.digestOf (doc.field name) = none := by
    by_contra hsome
    obtain ⟨x, hx⟩ := Option.ne_none_iff_exists'.mp hsome
    rw [part_eq, Tool.bind_run, digest_eq_ok.mpr ⟨hx, rfl⟩] at h
    cases h
  refine ⟨hnone, ?_⟩
  unfold part at h
  rcases Tool.bind_eq_error.mp h with hget | ⟨v, m, hget, h⟩
  · cases doc <;> cases hget
  obtain ⟨-, rfl, rfl⟩ := Json.get_eq_ok.mp hget
  rcases Tool.bind_eq_error.mp h with hu8a | ⟨u8, m, -, h⟩
  · cases (Platform.u8a_raises hu8a)
  rcases Tool.bind_eq_error.mp h with hensure | ⟨u, m, -, h⟩
  · exact (Thrown.error.inj (Tool.ensure_eq_error.mp hensure).2.1).symm
  · cases h

theorem signingPayload_error {message : Text}
    (h : signingPayload P doc d = .error (.error message) d') :
    ∃ name ∈ digestFields, P.digestOf (doc.field name) = none ∧ message =
      "hash ".toList ++ P.interpolate (doc.field name) ++ " is not 32 bytes".toList := by
  rw [signingPayload_eq_loop] at h
  rcases Tool.bind_eq_error.mp h with hmap | ⟨parts, m, -, h⟩
  · obtain ⟨name, hname, m, hpart⟩ := Tool.mapM_eq_error hmap
    exact ⟨name, hname, Platform.part_error hpart⟩
  · cases hset : setParts parts <;> rw [hset] at h <;> cases h

theorem signingPayload_doc_inj {payload : Bytes} (h : signingPayload P doc d = .ok payload d)
    (h' : signingPayload P doc' d' = .ok payload d') :
    ∀ name ∈ digestFields, P.digestOf (doc.field name) = P.digestOf (doc'.field name) := by
  obtain ⟨⟨c, t, e, o, hc, ht, he, ho, rfl⟩, -⟩ := signingPayload_eq_ok.mp h
  obtain ⟨⟨c', t', e', o', hc', ht', he', ho', heq⟩, -⟩ := signingPayload_eq_ok.mp h'
  have hdigests := BuildAttestation.signingPayload_inj.mp heq
  simp only [BuildAttestation.digests, List.cons.injEq, and_true] at hdigests
  obtain ⟨rfl, rfl, rfl, rfl⟩ := hdigests
  simp only [digestFields, List.forall_mem_cons, hc, ht, he, ho, hc', ht', he', ho']
  simp

/-- The tools sign the pallet's 128 bytes, whatever the letter case of the hashes;
a payload binds all four digests, of attestations as of documents; and the tools
throw when a field is not 32 bytes, and only then. -/
theorem signingPayload_binds (hP : P.DecodesHex) :
    (∀ doc (A : BuildAttestation T.AccountId) d, HasDigests doc A →
      signingPayload P doc d = .ok A.signingPayload d ∧ A.signingPayload.length = 128) ∧
    (∀ A B : BuildAttestation T.AccountId,
      (A.signingPayload = B.signingPayload ↔ A.digests = B.digests) ∧
        (A.builder = B.builder → A.signingPayload = B.signingPayload → A = B)) ∧
    (∀ doc doc' payload d d', signingPayload P doc d = .ok payload d →
      signingPayload P doc' d' = .ok payload d' →
      ∀ name ∈ digestFields, P.digestOf (doc.field name) = P.digestOf (doc'.field name)) ∧
    ∀ doc d, (∃ e, signingPayload P doc d = .error e d) ↔
      ∃ name ∈ digestFields, ¬ ∃ u8, P.u8aOf (doc.field name) = some u8 ∧ u8.length = 32 := by
  refine ⟨fun doc A d h => ⟨h.signingPayload hP d, A.length_signingPayload⟩, fun A B => ?_,
    fun doc doc' payload d d' h h' => signingPayload_doc_inj h h',
    fun doc d => signingPayload_throws_iff⟩
  refine ⟨BuildAttestation.signingPayload_inj, fun hbuilder h => ?_⟩
  exact BuildAttestation.eq_of_digests (BuildAttestation.signingPayload_inj.mp h) hbuilder

end

-- ---------------------------------------------------------------------------
-- Runs
-- ---------------------------------------------------------------------------

namespace Mock

theorem platform_decodesHex (documents : List (List (Text × Text))) :
    (platform documents).DecodesHex := fun _ _ h => unhex_of_lower h

def capitals (A : BuildAttestation Nat) : Json :=
  let upper (h : Hash32) := (hex h.toList).map Char.toUpper
  .object [("source_commit_hash".toList, .string ('0' :: 'x' :: upper A.sourceCommitHash)),
    ("source_tree_hash".toList, .string (upper A.sourceTreeHash)),
    ("build_environment_hash".toList, .string ('0' :: 'x' :: upper A.buildEnvironmentHash)),
    ("output_binary_hash".toList, .string (upper A.outputBinaryHash))]

theorem hasDigests_capitals :
    HasDigests (capitals (attestation 8 0xab)) (attestation 8 0xab) where
  sourceCommitHash := ⟨_, rfl, by decide +kernel⟩
  sourceTreeHash := ⟨_, rfl, by decide +kernel⟩
  buildEnvironmentHash := ⟨_, rfl, by decide +kernel⟩
  outputBinaryHash := ⟨_, rfl, by decide +kernel⟩

end Mock

theorem signingPayload_binds_capitals :
    let P := Mock.platform []
    let A := Mock.attestation 8 0xab
    signingPayload P (Mock.capitals A) Disk.empty = .ok A.signingPayload Disk.empty ∧
      ∃ e, signingPayload P (.object []) Disk.empty = .error e Disk.empty := by
  intro P A
  obtain ⟨hagrees, -, -, hthrows⟩ :=
    signingPayload_binds (T := Mock.Chain) (Mock.platform_decodesHex [])
  refine ⟨(hagrees _ A _ Mock.hasDigests_capitals).1, (hthrows _ _).mpr ?_⟩
  refine ⟨"source_commit_hash".toList, by decide, ?_⟩
  rintro ⟨u8, hu8, hlen⟩
  cases hu8
  cases hlen

end Verigov
