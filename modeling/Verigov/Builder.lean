import Verigov.SourceTree
import Verigov.Blessed
import Verigov.Lib.JsonText

/-!
# The builder

`compile`, `buildEnvironmentHash` and `buildAndAttest` of
`tools/builder/build.js`, with `commitHash32` of `tools/lib/common.js`. The
source tree stands still while it is built. The account behind the key and what
its signatures verify against are part of the key.
-/

namespace Verigov

open Path Hex FileTree

def PROJECT : Text := "acme-utils".toList

-- ---------------------------------------------------------------------------
-- Strings
-- ---------------------------------------------------------------------------

/-- What `.` does not match in a regular expression. -/
def isLineTerminator (c : Char) : Bool :=
  c = '\n' || c = '\r' || c.toNat = 0x2028 || c.toNat = 0x2029

/-- `.replace(/^#!.*\n/, '')` -/
def stripShebang : Text → Text
  | '#' :: '!' :: t =>
    match t.dropWhile fun c => !isLineTerminator c with
    | '\n' :: rest => rest
    | _ => '#' :: '!' :: t
  | t => t

def substitute (before matched after : Text) : Text → Text
  | [] => []
  | [c] => [c]
  | '$' :: c :: t =>
    if c = '$' then '$' :: substitute before matched after t
    else if c = '&' then matched ++ substitute before matched after t
    else if c.toNat = 96 then before ++ substitute before matched after t
    else if c.toNat = 39 then after ++ substitute before matched after t
    else '$' :: substitute before matched after (c :: t)
  | c :: t => c :: substitute before matched after t

/-- The rest of a text after `before`, of which `inMatch` characters are of a match. -/
def replaceFrom (pattern replacement : Text) : Nat → Text → Text → Text
  | _, _, [] => []
  | inMatch + 1, before, c :: t => replaceFrom pattern replacement inMatch (before ++ [c]) t
  | 0, before, c :: t =>
    if pattern.isPrefixOf (c :: t) then
      substitute before pattern ((c :: t).drop pattern.length) replacement ++
        replaceFrom pattern replacement (pattern.length - 1) (before ++ [c]) t
    else c :: replaceFrom pattern replacement 0 (before ++ [c]) t

/-- `String.prototype.replaceAll` with a pattern that is not empty. -/
def replaceAll (pattern replacement t : Text) : Text := replaceFrom pattern replacement 0 [] t

-- ---------------------------------------------------------------------------
-- The build
-- ---------------------------------------------------------------------------

structure Site extends Host where
  localeCompare : Text → Text → Int
  /-- `import.meta.filename` -/
  filename : Text
  srcDir : Text
  entries : List (Text × FileTree)

structure BuildArgs where
  version : Text
  commit : Text
  inject : Bool

def buildHeader (version commit : Text) : Text :=
  "#!/bin/sh\n# ".toList ++ PROJECT ++ ' ' :: version ++
    '\n' :: "# source_commit=".toList ++ commit ++
    '\n' :: "# built by the VeriGov hermetic toy builder\nset -e\n".toList

def buildBody (version commit : Text) (content : Bytes) : Text :=
  replaceAll "__COMMIT__".toList commit
    (replaceAll "__VERSION__".toList version (stripShebang (Unicode.toText content)))

def buildSection (version commit rel : Text) (content : Bytes) : Text :=
  "\n# --- ".toList ++ rel ++ " ---\n".toList ++ buildBody version commit content

def injected : Text :=
  ("\n# --- injected by compromised build service ---\n" ++
    "echo \"PWNED: exfiltrating ~/.ssh to attacker.example (simulated)\" >&2\n").toList

section

variable (site : Site) (args : BuildArgs)

def compile : Option Bytes := do
  let files := listFiles site.localeCompare site.cwd site.srcDir site.srcDir site.entries
  let out ← files.foldlM (fun out rel => do
    let content ← readSource site.cwd site.srcDir site.entries (join site.srcDir rel)
    pure (out ++ buildSection args.version args.commit rel content))
      (buildHeader args.version args.commit)
  let out := if args.inject then out ++ injected else out
  pure (Unicode.utf8 out)

end

-- ---------------------------------------------------------------------------
-- The attestation
-- ---------------------------------------------------------------------------

def commitHash32 (H : Hashing) (shortHex : Text) : Tool Text := do
  let clean := H.toLowerCase (strip0x shortHex)
  Tool.ensure (clean != [] && clean.all isLowerDigit && clean.length ≤ 64)
    ("bad commit id ".toList ++ shortHex)
  return '0' :: 'x' :: clean.rightpad 64 '0'

/-- A key of the keyring in one run; signing is randomised. -/
structure KeyringPair (P : Platform AccountId) where
  account : AccountId
  address : Text
  publicKey : Bytes
  sign : Bytes → Bytes
  decodes : P.decodeAddress address = some account
  verifies : ∀ message, P.sr25519Verify message (sign message) account = some true

mutual

/-- Of two fields of one name the last counts. -/
def Json.ofValue : JsonText.Value → Json
  | .null => .null
  | .string t => .string t
  | .object fields => .object (Json.ofFields fields).reverse
  | .bool _ | .array _ => .other

def Json.ofFields : List (Text × JsonText.Value) → List (Text × Json)
  | [] => []
  | (name, v) :: fields => (name, Json.ofValue v) :: Json.ofFields fields

end

def Platform.ParsesJson (P : Platform AccountId) : Prop :=
  ∀ bytes v, JsonText.read (Unicode.toText bytes) = some v → P.parse bytes = some (Json.ofValue v)

def objectOfTexts (fields : List (Text × Text)) : JsonText.Value :=
  .object (fields.map fun f => (f.1, .string f.2))

/-- `JSON.stringify(object, null, 2) + '\n'` as bytes. -/
def stringifyPretty (fields : List (Text × Text)) : Bytes :=
  Unicode.utf8 (JsonText.write "  ".toList [] (objectOfTexts fields) ++ ['\n'])

structure AttestationTexts where
  source_commit_hash : Text
  source_tree_hash : Text
  build_environment_hash : Text
  output_binary_hash : Text
  builder : Text

def AttestationTexts.fields (att : AttestationTexts) : List (Text × Text) :=
  [("source_commit_hash".toList, att.source_commit_hash),
    ("source_tree_hash".toList, att.source_tree_hash),
    ("build_environment_hash".toList, att.build_environment_hash),
    ("output_binary_hash".toList, att.output_binary_hash),
    ("builder".toList, att.builder)]

def attestationDocument (version : Text) (att : AttestationTexts) (publicKey signature : Text) :
    List (Text × Text) :=
  [("schema".toList, "verigov/A_build/v1".toList), ("project".toList, PROJECT),
    ("version".toList, version)] ++ att.fields ++
  [("builder_public_key".toList, publicKey), ("builder_signature".toList, signature),
    ("signature_scheme".toList, "sr25519".toList),
    ("signed_payload".toList, ("source_commit_hash || source_tree_hash || " ++
      "build_environment_hash || output_binary_hash").toList)]

structure Built where
  version : Text
  commit : Text
  inject : Bool
  binary : Bytes
  attestation : AttestationTexts
  signature : Text
  attestationJson : Bytes
  attestationCid : Text
  binaryCid : Text

section

variable (P : Platform AccountId) (site : Site) (args : BuildArgs)

def buildEnvironmentHash : Tool Text := do
  return P.sha256Hex (← Tool.readFileSync site.cwd site.filename)

def attest (builder : KeyringPair P) (binary : Bytes) : Tool AttestationTexts := do
  let source_commit_hash ← commitHash32 P.toHashing args.commit
  let source_tree_hash ← Tool.ofOption
    (sourceTreeHash P.toHashing site.localeCompare site.cwd site.srcDir site.entries)
  let build_environment_hash ← buildEnvironmentHash P site
  return {
    source_commit_hash
    source_tree_hash
    build_environment_hash
    output_binary_hash := P.sha256Hex binary
    builder := builder.address }

/-- The two CIDs; only where `pin` is set, anything is stored. -/
def pinBuild (pin : Bool) (binary attestationJson : Bytes) : Tool (Text × Text) :=
  if pin then do
    let binaryCid ← storePut P.toHashing site.toHost binary
    let attestationCid ← storePut P.toHashing site.toHost attestationJson
    return (binaryCid, attestationCid)
  else return (P.sha256Hex binary, P.sha256Hex attestationJson)

def buildAndAttest (builder : KeyringPair P) (pin : Bool) : Tool Built := do
  let binary ← Tool.ofOption (compile site args)
  let attestation ← attest P site args builder binary
  let payload ← signingPayload P (Json.ofValue (objectOfTexts attestation.fields))
  let signature := P.u8aToHex (builder.sign payload)
  let attestationJson := stringifyPretty
    (attestationDocument args.version attestation (P.u8aToHex builder.publicKey) signature)
  let (binaryCid, attestationCid) ← pinBuild P site pin binary attestationJson
  return {
    version := args.version
    commit := args.commit
    inject := args.inject
    binary
    attestation
    signature
    attestationJson
    attestationCid
    binaryCid }

end

end Verigov
