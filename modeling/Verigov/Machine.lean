import Verigov.Pallet
import Verigov.Lib.Transition

/-!
# The chain as a transition system

A step is a block, whose hook runs before its calls; a call that succeeds; a
call that fails and changes nothing; or another pallet moving funds that this
pallet has not put on hold. A run starts from empty storage, at any block and
with any balances none of which is held by this pallet.
-/

namespace Verigov

open Transition

variable {T : Config}

inductive Call (T : Config)
  | projectGenesis (name : BoundedVec UInt8 nameLimit)
      (stakeholders : BoundedVec (StakeholderInit T.AccountId) maxStakeholdersPerGenesis)
      (policy : ReleasePolicy) (slashing : SlashingParams) (proposalBond : Nat)
  | newRelease (projectId : Nat) (version : BoundedVec UInt8 versionLimit)
      (attestation : BuildAttestation T.AccountId) (attestationCid : Hash32)
      (builderSignature : T.Signature)
  | vote (proposalId : Nat) (aye : Bool)
  | submitCounterAttestation (proposalId : Nat) (rebuiltBinaryHash : Hash32)
  | closeExpired (proposalId : Nat)

def dispatch (origin : Origin T) : Call T → State T → Except DispatchError (State T)
  | .projectGenesis name stakeholders policy slashing proposalBond =>
    projectGenesis origin name stakeholders policy slashing proposalBond
  | .newRelease projectId version attestation attestationCid builderSignature =>
    newRelease origin projectId version attestation attestationCid builderSignature
  | .vote proposalId aye => vote origin proposalId aye
  | .submitCounterAttestation proposalId rebuiltBinaryHash =>
    submitCounterAttestation origin proposalId rebuiltBinaryHash
  | .closeExpired proposalId => closeExpired origin proposalId

/-- The next block: its number is set, then its hook runs. -/
def nextBlock (s : State T) : State T :=
  let now := s.blockNumber + 1
  (onInitialize now { s with blockNumber := now }).1

inductive Action (T : Config)
  | block
  | call (origin : Origin T) (call : Call T)
  | failed (origin : Origin T) (call : Call T)
  | other (balances : T.currency.Ledger)

namespace Action

def isNewRelease : Action T → Bool
  | .call _ (.newRelease ..) => true
  | _ => false

def isProjectGenesis : Action T → Bool
  | .call _ (.projectGenesis ..) => true
  | _ => false

def genesisPolicy : Action T → Option ReleasePolicy
  | .call _ (.projectGenesis _ _ policy _ _) => some policy
  | _ => none

def challenged : Action T → Option Nat
  | .call _ (.submitCounterAttestation proposalId _) => some proposalId
  | _ => none

theorem challenged_eq_some {a : Action T} {id : Nat} (h : a.challenged = some id) :
    ∃ origin rebuilt, a = .call origin (.submitCounterAttestation id rebuilt) := by
  unfold challenged at h
  split at h
  · cases h
    exact ⟨_, _, rfl⟩
  · cases h

end Action

inductive Step : State T → Action T → State T → Prop
  | block (h : s.blockNumber < T.maxBlockNumber) : Step s .block (nextBlock s)
  | call (origin : Origin T) (c : Call T) (h : dispatch origin c s = .ok s') :
      Step s (.call origin c) s'
  | failed (origin : Origin T) (c : Call T) (h : dispatch origin c s = .error e) :
      Step s (.failed origin c) s
  | other (balances : T.currency.Ledger) (h : ∀ reason a,
      T.currency.balanceOnHold reason a balances = T.currency.balanceOnHold reason a s.balances) :
      Step s (.other balances) { s with balances }

/-- Empty storage, and nothing on hold for this pallet. -/
def Init (s : State T) : Prop :=
  ∃ blockNumber balances, s = { blockNumber, balances } ∧
    ∀ reason a, T.currency.balanceOnHold reason a balances = 0

abbrev Trace (T : Config) := List (State T × Action T)

def Reaches (tr : Trace T) (s : State T) : Prop := ∃ s0, Init s0 ∧ Run Step s0 tr s

def Reachable (s : State T) : Prop := ∃ tr, Reaches tr s

/-- Induction along a run of the chain, with the states before the last step reachable. -/
theorem Reaches.induct {P : State T → Action T → Prop} {I : Trace T → State T → Prop}
    {s : State T} (h : Reaches tr s) (hP : Along P tr) (h0 : ∀ s0, Init s0 → I [] s0)
    (hs : ∀ tr m a t, Reaches tr m → Along P tr → Step m a t → P m a → I tr m →
      I (tr ++ [(m, a)]) t) : I tr s := by
  obtain ⟨s0, hinit, hr⟩ := h
  exact hr.induct hP (h0 s0 hinit) fun tr m a t hrun => hs tr m a t ⟨s0, hinit, hrun⟩

theorem Reaches.append {s t : State T} (h : Reaches tr s) (hr : Run Step s tr' t) :
    Reaches (tr ++ tr') t := by
  obtain ⟨s0, hinit, h0⟩ := h
  exact ⟨s0, hinit, h0.trans hr⟩

-- ---------------------------------------------------------------------------
-- Running actions
-- ---------------------------------------------------------------------------

/-- A block or a call that succeeds. -/
def perform : Action T → State T → Option (State T)
  | .block, s => if s.blockNumber < T.maxBlockNumber then some (nextBlock s) else none
  | .call origin c, s => (dispatch origin c s).toOption
  | _, _ => none

/-- The trace and the last state of a run in which every action succeeds. -/
def exec : List (Action T) → State T → Option (Trace T × State T)
  | [], s => some ([], s)
  | a :: as, s => do
    let s' ← perform a s
    let (tr, t) ← exec as s'
    pure ((s, a) :: tr, t)

theorem perform_step {s s' : State T} (h : perform a s = some s') : Step s a s' := by
  cases a with
  | block =>
    simp only [perform, Option.ite_none_right_eq_some, Option.some.injEq] at h
    obtain ⟨hn, rfl⟩ := h
    exact .block hn
  | call origin c =>
    simp only [perform] at h
    cases hd : dispatch origin c s with
    | ok s1 =>
      rw [hd] at h
      cases h
      exact .call origin c hd
    | error e =>
      rw [hd] at h
      cases h
  | _ => cases h

theorem exec_run {s t : State T} (h : exec as s = some (tr, t)) : Run Step s tr t := by
  induction as generalizing s tr with
  | nil =>
    cases h
    exact .nil
  | cons a as ih =>
    simp only [exec, Option.bind_eq_bind, Option.bind_eq_some_iff, Option.pure_def,
      Option.some.injEq, Prod.mk.injEq, Prod.exists] at h
    obtain ⟨s', ha, tr', t', has, rfl, rfl⟩ := h
    exact (Run.single (perform_step ha)).trans (ih has)

theorem exec_actions {s t : State T} (h : exec as s = some (tr, t)) : tr.map Prod.snd = as := by
  induction as generalizing s tr with
  | nil =>
    cases h
    rfl
  | cons a as ih =>
    simp only [exec, Option.bind_eq_bind, Option.bind_eq_some_iff, Option.pure_def,
      Option.some.injEq, Prod.mk.injEq, Prod.exists] at h
    obtain ⟨s', ha, tr', t', has, rfl, rfl⟩ := h
    simp [ih has]

theorem exec_along {s t : State T} {P : Action T → Prop} (h : exec as s = some (tr, t))
    (hP : ∀ a ∈ as, P a) : Along (fun _ a => P a) tr := by
  intro x hx
  apply hP
  rw [← exec_actions h]
  exact List.mem_map_of_mem hx

theorem exec_get {s : State T} (h : (exec as s).isSome) :
    exec as s = some (((exec as s).get h).1, ((exec as s).get h).2) :=
  (Option.some_get h).symm

theorem exec_append {s m t : State T} (h : exec as s = some (tr, m))
    (h' : exec as' m = some (tr', t)) : exec (as ++ as') s = some (tr ++ tr', t) := by
  induction as generalizing s tr with
  | nil =>
    cases h
    exact h'
  | cons a as ih =>
    simp only [exec, Option.bind_eq_bind, Option.bind_eq_some_iff, Option.pure_def,
      Option.some.injEq, Prod.mk.injEq, Prod.exists] at h
    obtain ⟨s', ha, tr1, t1, has, rfl, rfl⟩ := h
    simp [exec, ha, ih has]

end Verigov
