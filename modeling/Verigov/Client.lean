import Verigov.Store
import Verigov.Machine

/-!
# The client

`verifyAndInstall` and `syncProject` of `tools/client/client.js`, with
`signingPayload` of `tools/lib/common.js`. The chain is read in one state. What
the tools log on the way is left out.

The other packages are parameters of `Platform`; `Platform.Lawful` says what is
documented of them.
-/

namespace Verigov

open Path Hex

/-- What `JSON.parse` gives. Numbers, booleans and arrays have none of the
properties the tools read. -/
inductive Json
  | null
  | string (t : Text)
  | object (fields : List (Text × Json))
  | other

def Json.field : Json → Text → Option Json
  | .object fields, name => fields.lookup name
  | _, _ => none

/-- Reading a property; `null` has none and throws. -/
def Json.get (j : Json) (name : Text) : Tool (Option Json) :=
  match j with
  | .null => throw .raised
  | j => pure (j.field name)

def Hash32.ofBytes (u8 : Bytes) (h : u8.length = 32) : Hash32 := ⟨u8, h⟩

@[simp] theorem Hash32.toList_ofBytes (u8 : Bytes) (h : u8.length = 32) :
    (Hash32.ofBytes u8 h).toList = u8 := rfl

structure Platform (AccountId : Type) extends Hashing where
  hexToU8a : Text → Bytes
  u8aToString : Bytes → Text
  /-- Of an address that is not well formed nothing comes back. -/
  decodeAddress : Text → Option AccountId
  /-- Throws when the signature has the wrong length. -/
  sr25519Verify : Bytes → Bytes → AccountId → Option Bool
  /-- `JSON.parse` of the bytes as UTF-8. -/
  parse : Bytes → Option Json
  /-- A value in a template literal. -/
  interpolate : Option Json → Text

namespace Platform

variable {AccountId : Type} (P : Platform AccountId)

/-- `hexToU8a` reads digits of either case after `0x`, two for each byte. -/
structure Lawful : Prop extends P.toHashing.Lawful where
  hexToU8a : ∀ t u8a, t.map Char.toLower = hex u8a → P.hexToU8a ('0' :: 'x' :: t) = u8a
  length_hexToU8a : ∀ t, (∀ c ∈ t, c.toNat < 128) →
    (P.hexToU8a t).length = ((strip0x t).length + 1) / 2

/-- `value?.toLowerCase()`: only strings have the method. -/
def lower : Option Json → Tool (Option Text)
  | none | some .null => pure none
  | some (.string t) => pure (some (P.toLowerCase t))
  | some _ => throw .raised

def u8a : Option Json → Tool Bytes
  | none | some .null => pure []
  | some (.string t) => pure (P.hexToU8a t)
  | some _ => throw .raised

def address : Option Json → Tool AccountId
  | some (.string t) => Tool.ofOption (P.decodeAddress t)
  | _ => throw .raised

def digest (att : Json) (name : Text) : Tool Hash32 := do
  let h ← att.get name
  let u8 ← P.u8a h
  if hlen : u8.length = 32 then pure (.ofBytes u8 hlen)
  else throw (.error ("hash ".toList ++ P.interpolate h ++ " is not 32 bytes".toList))

end Platform

def signingPayload (P : Platform AccountId) (att : Json) : Tool Bytes := do
  let sourceCommitHash ← P.digest att "source_commit_hash".toList
  let sourceTreeHash ← P.digest att "source_tree_hash".toList
  let buildEnvironmentHash ← P.digest att "build_environment_hash".toList
  let outputBinaryHash ← P.digest att "output_binary_hash".toList
  let out := List.replicate 128 0
  let out := copyFromSlice 0 sourceCommitHash out
  let out := copyFromSlice 32 sourceTreeHash out
  let out := copyFromSlice 64 buildEnvironmentHash out
  return copyFromSlice 96 outputBinaryHash out

def releaseName (projectName version : Text) : Text := projectName ++ '-' :: version

def installTarget (installDir projectName version : Text) : Text :=
  join installDir (releaseName projectName version)

def attestationTarget (target : Text) : Text := target ++ ".attestation.json".toList

structure Installed where
  version : Text
  path : Text
  hash : Text
  attestationCid : Text
  deriving DecidableEq

structure Synced where
  projectName : Text
  count : Nat
  installed : List Installed
  skipped : List Text
  deriving DecidableEq

section

variable {T : Config} (P : Platform T.AccountId) (host : Host) (s : State T) (projectId : Nat)

/-- Steps 1 to 4 of `verifyAndInstall`: the attestation's bytes and the binary. -/
def verify (entry : ReleaseEntry) : Tool (Bytes × Bytes) := do
  let onChainBinaryHash := P.u8aToHex entry.outputBinaryHash.toList
  let attestationCid := P.u8aToHex entry.attestationCid.toList
  let onChainCommit := P.u8aToHex entry.sourceCommitHash.toList
  let attBytes ← storeGet P.toHashing host attestationCid
  let att ← Tool.ofOption (P.parse attBytes)
  -- `A_build` must be the one the vote was about.
  let binaryHash ← att.get "output_binary_hash".toList
  Tool.ensure ((← P.lower binaryHash) == some onChainBinaryHash)
    ("attestation output_binary_hash ".toList ++ P.interpolate binaryHash ++
      " != on-chain ".toList ++ onChainBinaryHash)
  let commit ← att.get "source_commit_hash".toList
  Tool.ensure ((← P.lower commit) == some onChainCommit)
    ("attestation source_commit_hash ".toList ++ P.interpolate commit ++
      " != on-chain ".toList ++ onChainCommit)
  let builder ← att.get "builder".toList
  let account ← P.address builder
  let builderInfo := s.stakeholders.get (projectId, account)
  Tool.ensure (builderInfo.any (·.role == .buildService))
    ("attestation builder ".toList ++ P.interpolate builder ++
      " is not a registered Build Service".toList)
  let payload ← signingPayload P att
  let signature ← P.u8a (← att.get "builder_signature".toList)
  let sigOk ← Tool.ofOption (P.sr25519Verify payload signature account)
  Tool.ensure sigOk "builder_signature does not verify".toList
  let binary ← storeGet P.toHashing host onChainBinaryHash
  let actual := P.sha256Hex binary
  Tool.ensure (actual == onChainBinaryHash)
    ("binary hash ".toList ++ actual ++ " != ".toList ++ onChainBinaryHash)
  return (attBytes, binary)

def install (installDir target : Text) (attBytes binary : Bytes) : Tool Unit := do
  Tool.mkdirSync host.cwd installDir
  Tool.writeFileSync host.cwd target binary
  Tool.writeFileSync host.cwd (attestationTarget target) attBytes

def verifyAndInstall (projectName : Text) (entry : ReleaseEntry) (installDir : Text) :
    Tool Installed := do
  let version := P.u8aToString entry.version.val
  let (attBytes, binary) ← verify P host s projectId entry
  let target := installTarget installDir projectName version
  install host installDir target attBytes binary
  return {
    version
    path := target
    hash := P.u8aToHex entry.outputBinaryHash.toList
    attestationCid := P.u8aToHex entry.attestationCid.toList }

/-- `fs.existsSync(target) && sha256Hex(fs.readFileSync(target)) === hash` -/
def upToDate (target hash : Text) : Tool Bool := do
  if ← Tool.existsSync host.cwd target then
    return P.sha256Hex (← Tool.readFileSync host.cwd target) == hash
  else return false

def syncEntry (projectName installDir : Text) (acc : List Installed × List Text) (i : Nat) :
    Tool (List Installed × List Text) := do
  let entry ← Tool.ofOption (s.releaseLog.get (projectId, i))
  let version := P.u8aToString entry.version.val
  let target := installTarget installDir projectName version
  if ← upToDate P host target (P.u8aToHex entry.outputBinaryHash.toList) then
    return (acc.1, acc.2 ++ [version])
  else
    return (acc.1 ++ [← verifyAndInstall P host s projectId projectName entry installDir], acc.2)

/-- Installs the entries of the log, in order, that are not installed already. -/
def syncProject (installDir : Text) : Tool Synced := do
  let project ← match s.projects.get projectId with
    | some project => pure project
    | none => throw (.error ("project ".toList ++ (toString projectId).toList ++
        " not found on chain".toList))
  let projectName := P.u8aToString project.name.val
  let count := s.releaseCountOf projectId
  let (installed, skipped) ←
    (List.range count).foldlM (syncEntry P host s projectId projectName installDir) ([], [])
  return { projectName, count, installed, skipped }

end

end Verigov
