import Verigov.Installs
import Verigov.Mock

/-!
# The chain's runtime

The pallet as `runtime/src/configs/mod.rs` configures it: 128-bit balances,
32-bit block numbers, and attestations signed in any of the schemes of a
`MultiSignature`. Which schemes there are, and what they accept, is a parameter.
-/

namespace Verigov

structure Schemes (AccountId : Type) where
  Scheme : Type
  sr25519 : Scheme
  /-- Whether the raw signature over the message is the account's. -/
  check : Scheme → Bytes → Bytes → AccountId → Bool

structure MultiSignature (S : Schemes AccountId) where
  scheme : S.Scheme
  raw : Bytes

/-- `impl pallet_verigov::Config for Runtime` -/
@[reducible] def Runtime (AccountId : Type) [DecidableEq AccountId] (S : Schemes AccountId)
    (currency : Currency HoldReason AccountId DispatchError)
    (readsWrites : Nat → Nat → Weight) : Config where
  AccountId
  Signature := MultiSignature S
  verify sig message signer := S.check sig.scheme sig.raw message signer
  currency
  maxBalance := u128Max
  maxBlockNumber := u32Max
  readsWrites

-- ---------------------------------------------------------------------------
-- A small chain
-- ---------------------------------------------------------------------------

namespace Mock

inductive Scheme
  | ed25519
  | sr25519
  | ecdsa
  deriving DecidableEq

def Scheme.tag : Scheme → UInt8
  | .ed25519 => 0
  | .sr25519 => 1
  | .ecdsa => 2

/-- A stand-in for a signature: the scheme, the signer and the message's hash. -/
def rawSignature (scheme : Scheme) (who : Nat) (message : Bytes) : Bytes :=
  scheme.tag :: UInt8.ofNat who :: (List.replicate 30 0 ++ (Sha256.sha256 message).toList)

def schemes : Schemes Nat where
  Scheme
  sr25519 := .sr25519
  check scheme raw message who := raw == rawSignature scheme who message

@[reducible] def Chain : Config :=
  Runtime Nat schemes (Ledger.currency HoldReason Nat u128Max 1 .token) fun _ _ => ⟨0, 0⟩

def vault : Ledger HoldReason Nat u128Max where
  free := [1, 8, 9].foldl (fun m a => m.insert a 5000) .empty
  held := .empty
  fits := by decide +kernel

def launch : State Chain := { blockNumber := 1, balances := vault }

theorem name_fits : [(0x61 : UInt8)].length ≤ nameLimit := by decide

theorem quorum_fits : [(⟨.coreDeveloper, half⟩ : RoleQuorum)].length ≤ maxRequiredRoles := by
  decide

def found : Action Chain :=
  .call .root (.projectGenesis ⟨[0x61], name_fits⟩
    ⟨[⟨1, .coreDeveloper, 1000⟩, ⟨8, .buildService, 0⟩, ⟨9, .buildService, 0⟩], by decide⟩
    { requiredRoles := ⟨[⟨.coreDeveloper, half⟩], quorum_fits⟩
      votingPeriod := 50
      enactmentDelay := 1 }
    { sigmaNeg := half, sigmaMal := half, deltaMax := 500 } 0)

def bless (version : BoundedVec UInt8 versionLimit) (A : BuildAttestation Nat)
    (cid : Hash32) (scheme : Scheme) : List (Action Chain) :=
  [.call (.signed 1) (.newRelease 0 version A cid
    ⟨scheme, rawSignature scheme A.builder A.signingPayload⟩), .block]

def built (builder : Nat) (tree : UInt8) (binary : Bytes) : BuildAttestation Nat where
  sourceCommitHash := h 0xc0
  sourceTreeHash := h tree
  buildEnvironmentHash := h 0xde
  outputBinaryHash := Sha256.sha256 binary
  builder

def prefixed (bytes : Bytes) : Text := '0' :: 'x' :: Hex.hex bytes

def document (A : BuildAttestation Nat) : List (Text × Text) :=
  [("source_commit_hash".toList, prefixed A.sourceCommitHash.toList),
    ("source_tree_hash".toList, prefixed A.sourceTreeHash.toList),
    ("build_environment_hash".toList, prefixed A.buildEnvironmentHash.toList),
    ("output_binary_hash".toList, prefixed A.outputBinaryHash.toList),
    ("builder".toList, prefixed (Sha256.bigEndian 32 A.builder)),
    ("builder_signature".toList,
      prefixed (rawSignature .sr25519 A.builder A.signingPayload))]

def stringify (fields : List (Text × Text)) : Bytes :=
  let quote (t : Text) := '"' :: t ++ ['"']
  ('{' :: [','].intercalate (fields.map fun f => quote f.1 ++ ':' :: quote f.2) ++ ['}']).map
    fun c => UInt8.ofNat c.toNat

/-- The packages on ASCII text, with the documents there are to parse. -/
def platform (documents : List (List (Text × Text))) : Platform Nat where
  toHashing := hashing
  hexToU8a t := Hex.unhex (strip0x t)
  u8aToString bytes := bytes.map fun b => Char.ofNat b.toNat
  decodeAddress t :=
    if t.take 2 = ['0', 'x'] ∧ t.length = 66 then
      some ((Hex.unhex (t.drop 2)).foldl (fun n b => 256 * n + b.toNat) 0)
    else none
  sr25519Verify message raw who :=
    if raw.length = 64 then some (schemes.check .sr25519 raw message who) else none
  parse bytes := (documents.find? fun fields => stringify fields == bytes).map fun fields =>
    .object (fields.map fun f => (f.1, .string f.2))
  interpolate
    | some (.string t) => t
    | some .null => "null".toList
    | none => "undefined".toList
    | _ => "".toList

def blessed (releases : List (List (Action Chain)))
    (h : (exec (found :: releases.flatten) launch).isSome := by decide +kernel) : State Chain :=
  ((exec (found :: releases.flatten) launch).get h).2

theorem exec_blessed (releases : List (List (Action Chain)))
    (h : (exec (found :: releases.flatten) launch).isSome := by decide +kernel) :
    exec (found :: releases.flatten) launch =
      some (((exec (found :: releases.flatten) launch).get h).1, blessed releases h) :=
  exec_get h

theorem reaches_blessed (releases : List (List (Action Chain)))
    (h : (exec (found :: releases.flatten) launch).isSome := by decide +kernel) :
    Reaches ((exec (found :: releases.flatten) launch).get h).1 (blessed releases h) :=
  ⟨launch, ⟨1, vault, rfl, fun r a => StorageMap.getD_empty (r, a) 0⟩,
    exec_run (exec_blessed releases h)⟩

def opened : State Chain := blessed []

def stocked (artifacts : List Bytes) : Disk := storePuts hashing repoHost artifacts Disk.empty

def installDir : Text := "/repo/install".toList

theorem platform_lawful (documents : List (List (Text × Text))) : (platform documents).Lawful where
  toLawful := hashing_lawful
  hexToU8a _ _ h := Hex.unhex_of_lower h
  length_hexToU8a t _ := Hex.length_unhex (strip0x t)

end Mock

end Verigov
