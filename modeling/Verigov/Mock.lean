import Verigov.Machine

/-!
# The mock runtime

The test runtime of `mock.rs`: numbered accounts, a signature that is valid iff
it was made by the signer over exactly the message, 64-bit balances and block
numbers, and an existential deposit of one. The projects and the releases of
`tests.rs` are written with the few parameters in which the runs differ.
-/

namespace Verigov.Mock

structure MockSignature where
  signer : Nat
  message : List UInt8
  deriving DecidableEq

@[reducible] def Test : Config where
  AccountId := Nat
  Signature := MockSignature
  verify sig message signer := signer == sig.signer && message == sig.message
  currency := Ledger.currency HoldReason Nat u64Max 1 .token
  maxBalance := u64Max
  maxBlockNumber := u64Max
  readsWrites _ _ := ⟨0, 0⟩

/-- Accounts `1` to `9`, each with its initial balance. -/
def bank : Ledger HoldReason Nat u64Max where
  free := (List.range' 1 9).foldl (fun m a => m.insert a 100000) .empty
  held := .empty
  fits := by decide +kernel

/-- `new_test_ext`: the first block, with nothing in storage. -/
def start : State Test := { blockNumber := 1, balances := bank }

theorem init_start : Init start :=
  ⟨1, bank, rfl, fun r a => StorageMap.getD_empty (r, a) 0⟩

def trace (as : List (Action Test)) (h : (exec as start).isSome := by decide +kernel) :
    Trace Test := ((exec as start).get h).1

def after (as : List (Action Test)) (h : (exec as start).isSome := by decide +kernel) :
    State Test := ((exec as start).get h).2

theorem exec_after (as : List (Action Test)) (h : (exec as start).isSome := by decide +kernel) :
    exec as start = some (trace as h, after as h) :=
  exec_get h

theorem reaches (as : List (Action Test)) (h : (exec as start).isSome := by decide +kernel) :
    Reaches (trace as h) (after as h) :=
  ⟨start, init_start, exec_run (exec_after as h)⟩

def further (as : List (Action Test)) (s : State Test)
    (h : (exec as s).isSome := by decide +kernel) : Trace Test × State Test := (exec as s).get h

theorem run_further (as : List (Action Test)) (s : State Test)
    (h : (exec as s).isSome := by decide +kernel) :
    Transition.Run Step s (further as s h).1 (further as s h).2 :=
  exec_run (exec_get h)

def h (byte : UInt8) : Hash32 := List.Vector.replicate 32 byte

/-- Stakes of a thousand each: core developers `1` to `3`, an auditor `6`, and
the build services `8` and `9`. -/
def stakeholders : BoundedVec (StakeholderInit Nat) maxStakeholdersPerGenesis where
  val := [⟨1, .coreDeveloper, 1000⟩, ⟨2, .coreDeveloper, 1000⟩, ⟨3, .coreDeveloper, 1000⟩,
    ⟨6, .securityAuditor, 1000⟩, ⟨8, .buildService, 1000⟩, ⟨9, .buildService, 1000⟩]
  length_le := by decide

def percent (n : Nat) (h : n ≤ 100 := by decide) : Perbill := ⟨n * 10000000, by omega⟩

def half : Perbill := percent 50

def genesis (role : Role) (quorum : Perbill) (delay bond : Nat) : Action Test :=
  .call .root (.projectGenesis ⟨[0x61], by decide⟩ stakeholders
    { requiredRoles := ⟨[⟨role, quorum⟩], by simp [maxRequiredRoles]⟩
      votingPeriod := 100
      enactmentDelay := delay }
    { sigmaNeg := percent 50, sigmaMal := percent 100, deltaMax := 1000 } bond)

def attestation (builder : Nat) (binary : UInt8) : BuildAttestation Nat where
  sourceCommitHash := h 0xc0
  sourceTreeHash := h 0x51
  buildEnvironmentHash := h 0xde
  outputBinaryHash := h binary
  builder

def version : BoundedVec UInt8 versionLimit := ⟨[0x31], by decide⟩

def propose (builder : Nat) (binary : UInt8) : Action Test :=
  .call (.signed 1) (.newRelease 0 version (attestation builder binary) (h 0x42)
    ⟨builder, (attestation builder binary).signingPayload⟩)

def vote (who id : Nat) (aye : Bool) : Action Test := .call (.signed who) (.vote id aye)

def challenge (id : Nat) (rebuilt : UInt8) : Action Test :=
  .call (.signed 6) (.submitCounterAttestation id (h rebuilt))

end Verigov.Mock
