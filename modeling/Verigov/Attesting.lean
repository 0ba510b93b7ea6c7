import Verigov.CommitId
import Verigov.Rebuild

/-!
# What the builder pins

The document that `buildAndAttest` writes is read back field by field, and its
digests are those of the build. From a store that has nothing else under the two
hashes, the client's checks then pass for every entry that names the build.
-/

namespace Verigov

open Path Hex

/-- The texts are those of the attestation `A`. -/
structure Attests (P : Platform AccountId) (att : AttestationTexts)
    (A : BuildAttestation AccountId) : Prop where
  sourceCommitHash : att.source_commit_hash = P.u8aToHex A.sourceCommitHash.toList
  sourceTreeHash : att.source_tree_hash = P.u8aToHex A.sourceTreeHash.toList
  buildEnvironmentHash : att.build_environment_hash = P.u8aToHex A.buildEnvironmentHash.toList
  outputBinaryHash : att.output_binary_hash = P.u8aToHex A.outputBinaryHash.toList
  builder : P.decodeAddress att.builder = some A.builder

structure HasTexts (doc : Json) (att : AttestationTexts) : Prop where
  sourceCommitHash : doc.field "source_commit_hash".toList = some (.string att.source_commit_hash)
  sourceTreeHash : doc.field "source_tree_hash".toList = some (.string att.source_tree_hash)
  buildEnvironmentHash : doc.field "build_environment_hash".toList =
    some (.string att.build_environment_hash)
  outputBinaryHash : doc.field "output_binary_hash".toList = some (.string att.output_binary_hash)
  builder : doc.field "builder".toList = some (.string att.builder)

/-- What the attestation of a build says of the machine and the tree. -/
structure Describes (P : Platform AccountId) (site : Site) (args : BuildArgs)
    (account : AccountId) (binary : Bytes) (d : Disk) (A : BuildAttestation AccountId) :
    Prop where
  commit : CommitId args.commit ∧ A.sourceCommitHash.toList = commitWord args.commit
  tree : ∃ input, sourceTreeInput P.toHashing site.localeCompare site.cwd site.srcDir
    site.entries = some input ∧ A.sourceTreeHash = P.sha256 input
  environment : ∃ code, d.readFileSync site.cwd site.filename = some code ∧
    A.buildEnvironmentHash = P.sha256 code
  binary : A.outputBinaryHash = P.sha256 binary
  builder : A.builder = account

variable {T : Config} {P : Platform T.AccountId} {site : Site} {args : BuildArgs}
  {builder : KeyringPair P} {binary : Bytes} {d d' : Disk} {att : AttestationTexts}
  {A : BuildAttestation T.AccountId} {doc : Json}

-- ---------------------------------------------------------------------------
-- The document
-- ---------------------------------------------------------------------------

theorem ofFields_eq (fields : List (Text × Text)) :
    Json.ofFields (fields.map fun f => (f.1, .string f.2)) =
      fields.map fun f => (f.1, Json.string f.2) := by
  induction fields with
  | nil => rfl
  | cons f fields ih => simp [Json.ofFields, Json.ofValue, ih]

theorem ofValue_objectOfTexts (fields : List (Text × Text)) :
    Json.ofValue (objectOfTexts fields) =
      .object (fields.map fun f => (f.1, Json.string f.2)).reverse := by
  rw [objectOfTexts, Json.ofValue, ofFields_eq]

theorem Platform.ParsesJson.stringifyPretty (hP : P.ParsesJson) (fields : List (Text × Text)) :
    P.parse (stringifyPretty fields) = some (Json.ofValue (objectOfTexts fields)) := by
  refine hP _ _ ?_
  rw [Verigov.stringifyPretty, Unicode.toText_utf8]
  exact JsonText.read_write (by decide) _ (by decide)

theorem hasTexts_fields (att : AttestationTexts) :
    HasTexts (Json.ofValue (objectOfTexts att.fields)) att := by
  rw [ofValue_objectOfTexts]
  constructor <;> rfl

theorem hasTexts_document (version : Text) (att : AttestationTexts) (publicKey signature : Text) :
    HasTexts (Json.ofValue (objectOfTexts (attestationDocument version att publicKey signature)))
      att := by
  rw [ofValue_objectOfTexts]
  constructor <;> rfl

theorem hexField_of_string (hP : P.Lawful) {name : Text} {bytes : Bytes}
    (h : doc.field name = some (.string (P.u8aToHex bytes))) : HexField doc name bytes :=
  ⟨hex bytes, by rw [h, hP.u8aToHex], lower_hex bytes⟩

theorem HasTexts.attested (hP : P.Lawful) (h : HasTexts doc att) (hatt : Attests P att A) :
    P.attested doc = some A := by
  refine Platform.attested_eq_some.mpr ⟨?_, ?_, ?_, ?_, ?_⟩
  · exact (hexField_of_string hP (hatt.sourceCommitHash ▸ h.sourceCommitHash)).digestOf hP
  · exact (hexField_of_string hP (hatt.sourceTreeHash ▸ h.sourceTreeHash)).digestOf hP
  · exact (hexField_of_string hP (hatt.buildEnvironmentHash ▸ h.buildEnvironmentHash)).digestOf hP
  · exact (hexField_of_string hP (hatt.outputBinaryHash ▸ h.outputBinaryHash)).digestOf hP
  · rw [h.builder]
    exact hatt.builder

theorem carries_document (hP : P.Lawful) (hatt : Attests P att A) (version publicKey : Text)
    (raw : Bytes) : Carries P (Json.ofValue (objectOfTexts
      (attestationDocument version att publicKey (P.u8aToHex raw)))) A raw := by
  have h := hasTexts_document version att publicKey (P.u8aToHex raw)
  constructor
  · exact hexField_of_string hP (hatt.sourceCommitHash ▸ h.sourceCommitHash)
  · exact hexField_of_string hP (hatt.sourceTreeHash ▸ h.sourceTreeHash)
  · exact hexField_of_string hP (hatt.buildEnvironmentHash ▸ h.buildEnvironmentHash)
  · exact hexField_of_string hP (hatt.outputBinaryHash ▸ h.outputBinaryHash)
  · exact ⟨att.builder, h.builder, hatt.builder⟩
  · refine hexField_of_string hP ?_
    rw [ofValue_objectOfTexts]
    rfl

-- ---------------------------------------------------------------------------
-- The run
-- ---------------------------------------------------------------------------

theorem commitHash32_eq_ok {H : Hashing} (hH : H.LowersDigits) {shortHex t : Text} :
    commitHash32 H shortHex d = .ok t d' ↔
      CommitId shortHex ∧ t = '0' :: 'x' :: hex (commitWord shortHex) ∧ d = d' := by
  rcases commitHash32_run hH shortHex d with ⟨h, hrun⟩ | ⟨h, hrun⟩
  · rw [hrun, h.hex_commitWord.1]
    simp [h, eq_comm]
  · rw [hrun]
    simp [h]

theorem attest_eq_ok (hP : P.Lawful) (hH : P.LowersDigits)
    (h : attest P site args builder binary d = .ok att d') :
    d' = d ∧ att.builder = builder.address ∧
      ∃ A, Attests P att A ∧ Describes P site args builder.account binary d A := by
  simp only [attest, buildEnvironmentHash, sourceTreeHash, Tool.bind_eq_ok, Tool.ofOption_eq_ok,
    commitHash32_eq_ok hH, Tool.readFileSync_eq_ok, Tool.pure_eq_ok, Option.map_eq_some_iff] at h
  obtain ⟨c, m, ⟨hcommit, rfl, rfl⟩, t, m, ⟨⟨input, hinput, rfl⟩, rfl⟩, e, m,
    ⟨code, m1, ⟨hcode, rfl⟩, rfl, rfl⟩, rfl, rfl⟩ := h
  have hword := hcommit.hex_commitWord
  refine ⟨rfl, rfl, {
    sourceCommitHash := .ofBytes _ hword.2
    sourceTreeHash := P.sha256 input
    buildEnvironmentHash := P.sha256 code
    outputBinaryHash := P.sha256 binary
    builder := builder.account }, ?_, ?_⟩
  · exact ⟨(hP.u8aToHex _).symm, rfl, rfl, rfl, builder.decodes⟩
  · exact ⟨⟨hcommit, rfl⟩, ⟨input, hinput, rfl⟩, ⟨code, hcode, rfl⟩, rfl, rfl⟩

/-- A build that returned: what was compiled, what it is attested as, and what was put. -/
structure BuiltFrom (P : Platform AccountId) (site : Site) (args : BuildArgs)
    (builder : KeyringPair P) (d : Disk) (r : Built) (A : BuildAttestation AccountId) :
    Prop where
  compiled : compile site args = some r.binary
  describes : Describes P site args builder.account r.binary d A
  attests : Attests P r.attestation A
  address : r.attestation.builder = builder.address
  signature : r.signature = P.u8aToHex (builder.sign A.signingPayload)
  json : r.attestationJson = stringifyPretty (attestationDocument args.version r.attestation
    (P.u8aToHex builder.publicKey) r.signature)
  binaryCid : r.binaryCid = P.sha256Hex r.binary
  attestationCid : r.attestationCid = P.sha256Hex r.attestationJson

theorem pinBuild_eq_ok (hP : P.Lawful) {pin : Bool} {json : Bytes} {x : Text × Text}
    (h : pinBuild P site pin binary json d = .ok x d') :
    x = (P.sha256Hex binary, P.sha256Hex json) ∧
      if pin then ∃ cid cid' m, storePut P.toHashing site.toHost binary d = .ok cid m ∧
        storePut P.toHashing site.toHost json m = .ok cid' d'
      else d' = d := by
  cases pin with
  | false =>
    obtain ⟨rfl, rfl⟩ := Tool.pure_eq_ok.mp h
    exact ⟨rfl, rfl⟩
  | true =>
    simp only [pinBuild, if_true, Tool.bind_eq_ok, Tool.pure_eq_ok] at h
    obtain ⟨cid, m, hput, cid', m', hput', rfl, rfl⟩ := h
    have hcid := (storePut_eq_ok hP.toLawful hput).1
    have hcid' := (storePut_eq_ok hP.toLawful hput').1
    exact ⟨by rw [hcid, hcid'], cid, cid', m, hput, hput'⟩

theorem buildAndAttest_eq_ok (hP : P.Lawful) (hH : P.LowersDigits) {r : Built} {pin : Bool}
    (h : buildAndAttest P site args builder pin d = .ok r d') :
    (∃ A, BuiltFrom P site args builder d r A) ∧
      if pin then ∃ cid cid' m, storePut P.toHashing site.toHost r.binary d = .ok cid m ∧
        storePut P.toHashing site.toHost r.attestationJson m = .ok cid' d'
      else d' = d := by
  simp only [buildAndAttest, Tool.bind_eq_ok, Tool.ofOption_eq_ok] at h
  obtain ⟨binary, m, ⟨hcompile, rfl⟩, att, m, hattest, payload, m', hpayload, x, m'', hpins, hr⟩ :=
    h
  obtain ⟨rfl, haddress, A, hattests, hdescribes⟩ := attest_eq_ok hP hH hattest
  rw [signingPayload_of_attested ((hasTexts_fields att).attested hP hattests)] at hpayload
  simp only [EStateM.Result.ok.injEq] at hpayload
  obtain ⟨rfl, rfl⟩ := hpayload
  obtain ⟨rfl, hputs⟩ := pinBuild_eq_ok hP hpins
  obtain ⟨rfl, rfl⟩ := Tool.pure_eq_ok.mp hr
  refine ⟨⟨A, hcompile, hdescribes, hattests, haddress, ?_, ?_, ?_, ?_⟩, hputs⟩ <;> dsimp only

-- ---------------------------------------------------------------------------
-- The store
-- ---------------------------------------------------------------------------

/-- Only where the store's directory cannot be made, or the path is too long, a put throws. -/
theorem storePut_returns_iff {H : Hashing} {host : Host} {bytes : Bytes} (hH : H.Lawful) :
    (∃ cid m, storePut H host bytes d = .ok cid m) ↔
      (d.mkdirSync host.cwd host.STORE_DIR).isSome ∧ host.StoreFits := by
  constructor
  · rintro ⟨cid, m, hput⟩
    refine ⟨?_, (storePut_eq_ok hH hput).2.1⟩
    rw [storePut_run] at hput
    cases hm : d.mkdirSync host.cwd host.STORE_DIR with
    | none => simp [hm] at hput
    | some m => rfl
  · rintro ⟨hdir, hfits⟩
    obtain ⟨m, hm⟩ := Option.isSome_iff_exists.mp hdir
    have hv := (usablePath_store H host bytes).mpr hfits
    have ht := store_noTrailingSep H host bytes
    rw [storePut_run, hH.drop_sha256Hex, hm]
    dsimp only
    split
    · exact ⟨_, _, rfl⟩
    · rename_i habsent
      rw [Disk.existsSync_iff _ _ hv ht, resolve_store,
        Option.not_isSome_iff_eq_none] at habsent
      have hwrite : (m.writeFileSync host.cwd (join host.STORE_DIR (hex (H.sha256 bytes).toList))
          bytes).isSome := by
        rw [Disk.writeFileSync_isSome, Disk.Writable, resolve_store]
        refine ⟨hv, ht, ?_, ?_, ?_⟩
        · simp [storeLocation]
        · simpa [storeLocation] using (Disk.mkdirSync_made hm).ends
        · simp [habsent]
      obtain ⟨m', hm'⟩ := Option.isSome_iff_exists.mp hwrite
      rw [hm']
      exact ⟨_, _, rfl⟩

theorem storePut_beside {H : Hashing} {host : Host} {bytes : Bytes} {cid : Text} {m : Disk}
    {l : Location} (hH : H.Lawful) (h : storePut H host bytes d = .ok cid m)
    (hl : ¬ l <+: storeLocation H host bytes) : m.node l = d.node l := by
  rw [storePut_run, hH.drop_sha256Hex] at h
  cases hm : d.mkdirSync host.cwd host.STORE_DIR with
  | none => simp [hm] at h
  | some m0 =>
    have hmade : m0.node l = d.node l := by
      cases hd : d.node l with
      | some n => exact (Disk.mkdirSync_made hm).keeps l n hd
      | none =>
        by_contra hne
        have hpre := ((Disk.mkdirSync_made hm).adds l hd (Option.isSome_iff_ne_none.mpr hne)).1
        exact hl (hpre.trans (List.prefix_append _ _))
    simp only [hm] at h
    split at h
    · simp only [EStateM.Result.ok.injEq] at h
      rw [← h.2, hmade]
    · split at h
      · cases h
      · rename_i m1 hw
        simp only [EStateM.Result.ok.injEq] at h
        rw [← h.2, Disk.node_writeFileSync hw, resolve_store, if_neg, hmade]
        rintro rfl
        exact hl (List.prefix_refl _)

theorem storePut_again {H : Hashing} {host : Host} {bytes : Bytes} {cid : Text} {m : Disk}
    (h : storePut H host bytes d = .ok cid m) : (m.mkdirSync host.cwd host.STORE_DIR).isSome := by
  rw [storePut_run] at h
  cases hm : d.mkdirSync host.cwd host.STORE_DIR with
  | none => simp [hm] at h
  | some m0 =>
    have hv := Disk.usablePath_of_mkdirSync hm
    have hdir : m.node (resolve host.cwd host.STORE_DIR) = some .directory := by
      have hends := (Disk.mkdirSync_made hm).ends
      simp only [hm] at h
      split at h
      · simp only [EStateM.Result.ok.injEq] at h
        rw [← h.2]
        exact hends
      · split at h
        · cases h
        · rename_i m1 hw
          simp only [EStateM.Result.ok.injEq] at h
          rw [← h.2, Disk.node_writeFileSync hw, if_neg, hends]
          intro heq
          obtain ⟨-, -, -, -, hfree⟩ := Disk.writable_of_writeFileSync hw
          exact hfree (heq ▸ hends)
    rw [Disk.mkdirSync_isSome]
    refine ⟨hv, fun l bytes hl hfile => ?_⟩
    rw [Disk.node_of_prefix hdir hl] at hfile
    cases hfile

theorem buildAndAttest_returns (hP : P.Lawful) (hH : P.LowersDigits) (h : site.Valid)
    (builder : KeyringPair P) {pin : Bool} {code : Bytes} (hcommit : CommitId args.commit)
    (hcode : d.readFileSync site.cwd site.filename = some code)
    (hroom : pin = true → (d.mkdirSync site.cwd site.STORE_DIR).isSome ∧ site.StoreFits) :
    ∃ r d', buildAndAttest P site args builder pin d = .ok r d' := by
  obtain ⟨xs, hxs⟩ := h.exists_reads
  have hcompile := hxs.compile_eq h args
  obtain ⟨att, hattest⟩ : ∃ att,
      attest P site args builder (Unicode.utf8 (buildText args xs)) d = .ok att d := by
    refine ⟨{
      source_commit_hash := '0' :: 'x' :: hex (commitWord args.commit)
      source_tree_hash := P.sha256Hex (Unicode.utf8 (treeText P.toHashing xs))
      build_environment_hash := P.sha256Hex code
      output_binary_hash := P.sha256Hex (Unicode.utf8 (buildText args xs))
      builder := builder.address }, ?_⟩
    simp only [attest, buildEnvironmentHash, sourceTreeHash, Tool.bind_eq_ok,
      Tool.ofOption_eq_ok, commitHash32_eq_ok hH, Tool.readFileSync_eq_ok, Tool.pure_eq_ok,
      Option.map_eq_some_iff]
    refine ⟨_, d, ⟨hcommit, rfl, rfl⟩, _, d, ⟨⟨_, hxs.sourceTreeInput_eq h _, rfl⟩, rfl⟩, ?_⟩
    exact ⟨_, d, ⟨code, d, ⟨hcode, rfl⟩, rfl, rfl⟩, rfl, rfl⟩
  obtain ⟨-, -, A, hattests, -⟩ := attest_eq_ok hP hH hattest
  have hpayload := signingPayload_of_attested ((hasTexts_fields att).attested hP hattests) d
  have hpins : ∀ json, ∃ x d', pinBuild P site pin (Unicode.utf8 (buildText args xs)) json d =
      .ok x d' := by
    intro json
    cases pin with
    | false => exact ⟨_, d, rfl⟩
    | true =>
      obtain ⟨cid, m, hput⟩ := (storePut_returns_iff hP.toLawful).mpr (hroom rfl)
      have hagain : ∃ cid' d', storePut P.toHashing site.toHost json m = .ok cid' d' :=
        (storePut_returns_iff hP.toLawful).mpr ⟨storePut_again hput, (hroom rfl).2⟩
      obtain ⟨cid', d', hput'⟩ := hagain
      exact ⟨_, d', Tool.bind_eq_ok.mpr ⟨cid, m, hput, Tool.bind_eq_ok.mpr ⟨cid', d', hput', rfl⟩⟩⟩
  obtain ⟨x, d', hpins⟩ := hpins (stringifyPretty (attestationDocument args.version att
    (P.u8aToHex builder.publicKey) (P.u8aToHex (builder.sign A.signingPayload))))
  simp only [buildAndAttest, Tool.bind_eq_ok, Tool.ofOption_eq_ok, Tool.pure_eq_ok]
  refine ⟨_, d', _, d, ⟨hcompile, rfl⟩, att, d, hattest, _, d, hpayload, x, d', hpins, rfl, rfl⟩

/-- A build of a tree returns unless the commit id is not one, the builder's own
code cannot be read, or there is no room for the store. -/
theorem buildAndAttest_returns_iff (hP : P.Lawful) (hH : P.LowersDigits) (h : site.Valid)
    (args : BuildArgs) (builder : KeyringPair P) (pin : Bool) (d : Disk) :
    (∃ r d', buildAndAttest P site args builder pin d = .ok r d') ↔
      CommitId args.commit ∧ (∃ code, d.readFileSync site.cwd site.filename = some code) ∧
        (pin = true → (d.mkdirSync site.cwd site.STORE_DIR).isSome ∧ site.StoreFits) := by
  constructor
  · rintro ⟨r, d', hrun⟩
    obtain ⟨⟨A, hA⟩, hputs⟩ := buildAndAttest_eq_ok hP hH hrun
    obtain ⟨code, hcode, -⟩ := hA.describes.environment
    refine ⟨hA.describes.commit.1, ⟨code, hcode⟩, ?_⟩
    rintro rfl
    obtain ⟨cid, cid', m, hput, -⟩ := hputs
    exact (storePut_returns_iff hP.toLawful).mp ⟨cid, m, hput⟩
  · rintro ⟨hcommit, ⟨code, hcode⟩, hroom⟩
    exact buildAndAttest_returns hP hH h builder hcommit hcode hroom

/-- Nothing else is in the bytes' place in the store. -/
def Unspoilt (H : Hashing) (host : Host) (d : Disk) (bytes : Bytes) : Prop :=
  d.node (storeLocation H host bytes) = none ∨
    d.node (storeLocation H host bytes) = some (.file bytes)

theorem stored_of_node {P : Platform AccountId} (hfits : host.StoreFits) {bytes : Bytes}
    (h : d.node (storeLocation P.toHashing host bytes) = some (.file bytes)) :
    Stored P host d (P.sha256 bytes) bytes where
  file := by
    rw [Disk.readFileSync_eq_some, resolve_store]
    exact ⟨(usablePath_store _ _ _).mpr hfits, store_noTrailingSep _ _ _, h⟩
  hash := rfl

theorem stored_of_puts (hP : P.Lawful) {host : Host} {x y : Bytes} {cid cid' : Text} {m : Disk}
    (hne : P.sha256 x ≠ P.sha256 y) (hx : Unspoilt P.toHashing host d x)
    (hy : Unspoilt P.toHashing host d y) (hput : storePut P.toHashing host x d = .ok cid m)
    (hput' : storePut P.toHashing host y m = .ok cid' d') :
    Stored P host d' (P.sha256 x) x ∧ Stored P host d' (P.sha256 y) y := by
  obtain ⟨-, hfits, hnode⟩ := storePut_eq_ok hP.toLawful hput
  obtain ⟨-, -, hnode'⟩ := storePut_eq_ok hP.toLawful hput'
  have hkept := @node_storePut P.toHashing host hP.toLawful x y d
  have hkept' := @node_storePut P.toHashing host hP.toLawful y x m
  rw [hput] at hkept
  rw [hput'] at hkept'
  have hym : m.node (storeLocation P.toHashing host y) =
      d.node (storeLocation P.toHashing host y) :=
    hkept.resolve_right fun h => hne h.2.1
  have hxm : d'.node (storeLocation P.toHashing host x) =
      m.node (storeLocation P.toHashing host x) :=
    hkept'.resolve_right fun h => hne h.2.1.symm
  constructor
  · refine stored_of_node hfits ?_
    rw [hxm, hnode]
    rcases hx with h | h <;> rw [h] <;> rfl
  · refine stored_of_node hfits ?_
    rw [hnode', hym]
    rcases hy with h | h <;> rw [h] <;> rfl

/-- What the builder pins is what the client verifies: for an entry with the
hashes of the build, on a chain where the builder has the role, and only there. -/
theorem buildAndAttest_verifies (hP : P.Lawful) (hH : P.LowersDigits) (hparse : P.ParsesJson)
    {r : Built} (h : buildAndAttest P site args builder true d = .ok r d')
    (hbinary : Unspoilt P.toHashing site.toHost d r.binary)
    (hjson : Unspoilt P.toHashing site.toHost d r.attestationJson)
    (hne : P.sha256 r.binary ≠ P.sha256 r.attestationJson) :
    ∃ A, BuiltFrom P site args builder d r A ∧ ∀ (s : State T) p (entry : ReleaseEntry),
      entry.sourceCommitHash = A.sourceCommitHash →
      entry.outputBinaryHash = P.sha256 r.binary →
      entry.attestationCid = P.sha256 r.attestationJson →
      (verify P site.toHost s p entry d' = .ok (r.attestationJson, r.binary) d' ↔
        HasRole s p builder.account .buildService) := by
  obtain ⟨⟨A, hA⟩, hputs⟩ := buildAndAttest_eq_ok hP hH h
  obtain ⟨cid, cid', m, hput, hput'⟩ := hputs
  obtain ⟨hstored, hstored'⟩ := stored_of_puts hP hne hbinary hjson hput hput'
  refine ⟨A, hA, fun s p entry hcommit hhash hcid => ?_⟩
  have hcarries := carries_document hP hA.attests args.version (P.u8aToHex builder.publicKey)
    (builder.sign A.signingPayload)
  have hdoc := hparse.stringifyPretty (attestationDocument args.version r.attestation
    (P.u8aToHex builder.publicKey) r.signature)
  rw [← hA.json, hA.signature] at hdoc
  rw [verify_eq_ok hP]
  constructor
  · rintro ⟨⟨doc, B, hv⟩, -⟩
    obtain rfl := Option.some.inj (hdoc.symm.trans hv.parsed)
    obtain rfl := Option.some.inj ((hcarries.attested hP).symm.trans hv.attested)
    exact hA.describes.builder ▸ hv.builder
  · intro hrole
    refine ⟨⟨_, A, {
      attFile := hcid ▸ hstored'.file
      attHash := hcid.symm
      parsed := hdoc
      attested := hcarries.attested hP
      binaryText := ?_
      commitText := hcommit ▸ hcarries.sourceCommitHash.lowerOf hP
      builder := hA.describes.builder ▸ hrole
      signed := (hcarries.signedIn_iff hP).mpr ?_
      binaryFile := hhash ▸ hstored.file
      binaryHash := hhash.symm }⟩, rfl⟩
    · rw [hhash, ← hA.describes.binary]
      exact hcarries.outputBinaryHash.lowerOf hP
    · rw [hA.describes.builder]
      exact builder.verifies _

-- ---------------------------------------------------------------------------
-- A build
-- ---------------------------------------------------------------------------

namespace Mock

def toolchain : Platform Nat :=
  { platform [] with parse := fun bytes =>
      (JsonText.read (Unicode.toText bytes)).map Json.ofValue }

theorem toolchain_lawful : toolchain.Lawful where
  toLawful := hashing_lawful
  hexToU8a := (platform_lawful []).hexToU8a
  length_hexToU8a := (platform_lawful []).length_hexToU8a

theorem toolchain_parsesJson : toolchain.ParsesJson := fun _ v h => by
  show Option.map Json.ofValue _ = some (Json.ofValue v)
  rw [h]
  rfl

def key : KeyringPair toolchain where
  account := 8
  address := prefixed (Sha256.bigEndian 32 8)
  publicKey := Sha256.bigEndian 32 8
  sign := rawSignature .sr25519 8
  decodes := by decide +kernel
  verifies message := by
    have hlen : (rawSignature .sr25519 8 message).length = 64 := by
      simp [rawSignature]
    show (if (rawSignature .sr25519 8 message).length = 64 then
      some (rawSignature .sr25519 8 message == rawSignature .sr25519 8 message) else none) = _
    rw [if_pos hlen, beq_self_eq_true]

def honest : BuildArgs := ⟨"1.2.3".toList, "c0ff33d".toList, false⟩

def tampered : BuildArgs := { honest with inject := true }

def cloning : Tool Unit := do
  Tool.mkdirSync workshop.cwd "/repo/tools/builder".toList
  Tool.writeFileSync workshop.cwd workshop.filename [0x62]

def checkout : Disk := Tool.left (cloning Disk.empty)

theorem read_code : checkout.readFileSync workshop.cwd workshop.filename = some [0x62] := by
  decide +kernel

theorem commitId_honest : CommitId honest.commit :=
  ⟨by decide, List.all_eq_true.mp (by decide), by decide⟩

theorem build_returns (args : BuildArgs) (h : CommitId args.commit) :
    ∃ r d', buildAndAttest toolchain workshop args key true checkout = .ok r d' := by
  exact buildAndAttest_returns (T := Chain) toolchain_lawful hashing_lowersDigits workshop_valid
    key h read_code fun _ => ⟨by decide +kernel, by decide +kernel⟩

def shipment (args : BuildArgs) (h : CommitId args.commit) : BuildAttestation Nat where
  sourceCommitHash := .ofBytes (commitWord args.commit) h.hex_commitWord.2
  sourceTreeHash := hashing.sha256 (Unicode.utf8 (treeText hashing listing))
  buildEnvironmentHash := hashing.sha256 [0x62]
  outputBinaryHash := hashing.sha256 (Unicode.utf8 (buildText args listing))
  builder := 8

def shipmentTexts (A : BuildAttestation Nat) : AttestationTexts where
  source_commit_hash := hashing.u8aToHex A.sourceCommitHash.toList
  source_tree_hash := hashing.u8aToHex A.sourceTreeHash.toList
  build_environment_hash := hashing.u8aToHex A.buildEnvironmentHash.toList
  output_binary_hash := hashing.u8aToHex A.outputBinaryHash.toList
  builder := key.address

def shipmentJson (version : Text) (A : BuildAttestation Nat) : Bytes :=
  stringifyPretty (attestationDocument version (shipmentTexts A)
    (hashing.u8aToHex key.publicKey) (hashing.u8aToHex (key.sign A.signingPayload)))

theorem shipment_eq {args : BuildArgs} {r : Built} {A : BuildAttestation Nat}
    (hA : BuiltFrom toolchain workshop args key checkout r A)
    (h : CommitId args.commit) :
    r.binary = Unicode.utf8 (buildText args listing) ∧ A = shipment args h ∧
      r.attestationJson = shipmentJson args.version A := by
  have hbinary := hA.compiled
  rw [workshop_reads.compile_eq workshop_valid, Option.some.injEq] at hbinary
  obtain ⟨input, hinput, htree⟩ := hA.describes.tree
  rw [workshop_reads.sourceTreeInput_eq workshop_valid, Option.some.injEq] at hinput
  obtain ⟨code, hcode, henv⟩ := hA.describes.environment
  obtain rfl : code = [0x62] := Option.some.inj (hcode.symm.trans read_code)
  have hcommit : A.sourceCommitHash = .ofBytes (commitWord args.commit) h.hex_commitWord.2 :=
    List.Vector.eq _ _ (by rw [hA.describes.commit.2, Hash32.toList_ofBytes])
  have htexts : r.attestation = shipmentTexts A := by
    obtain ⟨h1, h2, h3, h4, -⟩ := hA.attests
    have h5 := hA.address
    cases hatt : r.attestation
    simp only [hatt] at h1 h2 h3 h4 h5
    rw [h1, h2, h3, h4, h5]
    rfl
  refine ⟨hbinary.symm, ?_, ?_⟩
  · obtain ⟨-, -, -, houtput, hbuilder⟩ := hA.describes
    rw [← hbinary] at houtput
    cases A
    simp only at hcommit htree henv houtput hbuilder
    rw [hcommit, htree, ← hinput, henv, houtput, hbuilder]
    rfl
  · rw [hA.json, hA.signature, htexts]
    rfl

theorem artifacts_differ : hashing.sha256 (Unicode.utf8 (buildText honest listing)) ≠
    hashing.sha256 (shipmentJson honest.version (shipment honest commitId_honest)) := by
  unfold shipmentJson stringifyPretty shipment
  rw [Unicode.utf8_eq_flatMap, Unicode.utf8_eq_flatMap]
  decide +kernel

theorem digests_differ {r : Built} {d' : Disk}
    (hrun : buildAndAttest toolchain workshop honest key true checkout = .ok r d') :
    hashing.sha256 r.binary ≠ hashing.sha256 r.attestationJson := by
  obtain ⟨⟨A, hA⟩, -⟩ := buildAndAttest_eq_ok (T := Chain) toolchain_lawful
    hashing_lowersDigits hrun
  obtain ⟨hbinary, rfl, hjson⟩ := shipment_eq hA commitId_honest
  rw [hbinary, hjson]
  exact artifacts_differ

theorem unspoilt_checkout (bytes : Bytes) :
    Unspoilt toolchain.toHashing workshop.toHost checkout bytes := by
  left
  rw [← Option.not_isSome_iff_eq_none]
  intro h
  have hdir := Disk.node_parent _ _ _ h
  revert hdir
  decide +kernel

end Mock

theorem buildAndAttest_returns_release : ∃ r d',
    buildAndAttest Mock.toolchain Mock.workshop Mock.honest Mock.key true Mock.checkout =
      .ok r d' :=
  (buildAndAttest_returns_iff (T := Mock.Chain) Mock.toolchain_lawful Mock.hashing_lowersDigits
    Mock.workshop_valid _ _ _ _).mpr
      ⟨Mock.commitId_honest, ⟨_, Mock.read_code⟩, fun _ => ⟨by decide +kernel, by decide +kernel⟩⟩

theorem buildAndAttest_verifies_release : ∃ r d', ∃ A : BuildAttestation Nat,
    buildAndAttest Mock.toolchain Mock.workshop Mock.honest Mock.key true Mock.checkout =
      .ok r d' ∧
    verify Mock.toolchain Mock.repoHost (Mock.opened) 0
      ⟨0, Mock.version, A.sourceCommitHash, Mock.hashing.sha256 r.binary,
        Mock.hashing.sha256 r.attestationJson, 1⟩ d' = .ok (r.attestationJson, r.binary) d' := by
  obtain ⟨r, d', hrun⟩ := Mock.build_returns Mock.honest Mock.commitId_honest
  obtain ⟨A, hA, hverify⟩ := buildAndAttest_verifies (T := Mock.Chain) Mock.toolchain_lawful
    Mock.hashing_lowersDigits Mock.toolchain_parsesJson hrun (Mock.unspoilt_checkout _)
    (Mock.unspoilt_checkout _) (Mock.digests_differ hrun)
  have hrole : HasRole (T := Mock.Chain) (Mock.opened) 0 8 .buildService :=
    ⟨⟨.buildService, 0⟩, by decide +kernel, rfl⟩
  exact ⟨r, d', A, hrun, (hverify _ _ _ rfl rfl rfl).mpr hrole⟩

end Verigov
