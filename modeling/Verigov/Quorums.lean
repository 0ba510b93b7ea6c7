import Verigov.Frames
import Verigov.Mock

/-!
# Eq. 1 in 128 bits

The acceptance rule compares two products that saturate at the largest 128-bit
value. Where both reach it the comparison says that the quorum is met, whatever
the products are. `RoleQuorum.Blurred` is the band in which this changes the
answer for a role.
-/

namespace Verigov

open State

variable {T : Config} {s : State T} {rq : RoleQuorum} {p id total ayes : Nat}

def RoleQuorum.Reached (rq : RoleQuorum) (total ayes : Nat) : Prop :=
  total ≠ 0 ∧ rq.quorum.parts * total ≤ ayes * 1000000000

instance (rq : RoleQuorum) (total ayes : Nat) : Decidable (rq.Reached total ayes) := by
  unfold RoleQuorum.Reached
  infer_instance

/-- The ayes are short of the quorum by products that both saturate. -/
def RoleQuorum.Blurred (rq : RoleQuorum) (total ayes : Nat) : Prop :=
  u128Max ≤ ayes * 1000000000 ∧ ayes * 1000000000 < rq.quorum.parts * total

instance (rq : RoleQuorum) (total ayes : Nat) : Decidable (rq.Blurred total ayes) := by
  unfold RoleQuorum.Blurred
  infer_instance

theorem RoleQuorum.Blurred.not_reached (h : rq.Blurred total ayes) : ¬ rq.Reached total ayes := by
  intro hr
  exact absurd hr.2 (Nat.not_le.mpr h.2)

theorem saturatingMul_le_saturatingMul (top a b c d : Nat) :
    saturatingMul top a b ≤ saturatingMul top c d ↔ a * b ≤ c * d ∨ top ≤ c * d := by
  unfold saturatingMul
  omega

/-- A role's quorum counts as met where it is reached, and in the band. -/
theorem RoleQuorum.met_iff (htotal : total ≤ u128Max) (hayes : ayes ≤ total) :
    rq.met total ayes = true ↔ rq.Reached total ayes ∨ rq.Blurred total ayes := by
  have hclip : saturatedInto u128Max total = total := Nat.min_eq_left htotal
  have hclip' : saturatedInto u128Max ayes = ayes :=
    Nat.min_eq_left (Nat.le_trans hayes htotal)
  rw [RoleQuorum.met_eq_true, hclip, hclip', saturatingMul_le_saturatingMul]
  simp only [RoleQuorum.Reached, RoleQuorum.Blurred, Perbill.deconstruct, Perbill.accuracy]
  constructor
  · rintro ⟨h0, hle | htop⟩
    · exact .inl ⟨h0, hle⟩
    · rcases Nat.lt_or_ge (ayes * 1000000000) (rq.quorum.parts * total) with hlt | hle
      · exact .inr ⟨htop, hlt⟩
      · exact .inl ⟨h0, hle⟩
  · rintro (⟨h0, hle⟩ | ⟨htop, hlt⟩)
    · exact ⟨h0, .inl hle⟩
    · refine ⟨?_, .inr htop⟩
      rintro rfl
      simp at hlt

theorem meetsQuorums_iff_reached (hstake : ∀ r, s.roleStakeOf p r ≤ u128Max)
    (hayes : ∀ r, (s.tallyOf id r).ayes ≤ s.roleStakeOf p r) :
    meetsQuorums p info id s = true ↔ ∀ rq ∈ info.policy.requiredRoles.val,
      rq.Reached (s.roleStakeOf p rq.role) (s.tallyOf id rq.role).ayes ∨
        rq.Blurred (s.roleStakeOf p rq.role) (s.tallyOf id rq.role).ayes := by
  simp only [meetsQuorums, List.all_eq_true]
  constructor
  · intro h rq hrq
    exact (RoleQuorum.met_iff (hstake _) (hayes _)).mp (h rq hrq)
  · intro h rq hrq
    exact (RoleQuorum.met_iff (hstake _) (hayes _)).mpr (h rq hrq)

/-- The rule is Eq. 1 over the integers iff no required role is in the band, or
one that is not falls short anyway. -/
theorem meetsQuorums_exact_iff (s : State T) (p : Nat) (project : ProjectInfo) (id : Nat)
    (hstake : ∀ r, s.roleStakeOf p r ≤ u128Max)
    (hayes : ∀ r, (s.tallyOf id r).ayes ≤ s.roleStakeOf p r) :
    (meetsQuorums p project id s = true ↔ ∀ rq ∈ project.policy.requiredRoles.val,
      rq.Reached (s.roleStakeOf p rq.role) (s.tallyOf id rq.role).ayes) ↔
    (∀ rq ∈ project.policy.requiredRoles.val,
      ¬ rq.Blurred (s.roleStakeOf p rq.role) (s.tallyOf id rq.role).ayes) ∨
    ∃ rq ∈ project.policy.requiredRoles.val,
      ¬ rq.Reached (s.roleStakeOf p rq.role) (s.tallyOf id rq.role).ayes ∧
        ¬ rq.Blurred (s.roleStakeOf p rq.role) (s.tallyOf id rq.role).ayes := by
  rw [meetsQuorums_iff_reached hstake hayes]
  constructor
  · intro h
    by_contra hcon
    push Not at hcon
    obtain ⟨⟨rq, hrq, hblur⟩, hall⟩ := hcon
    have hmet := h.mp fun rq' hrq' => by
      by_cases hr : rq'.Reached (s.roleStakeOf p rq'.role) (s.tallyOf id rq'.role).ayes
      · exact .inl hr
      · exact .inr (hall rq' hrq' hr)
    exact hblur.not_reached (hmet rq hrq)
  · rintro (hnone | ⟨rq, hrq, hr, hb⟩)
    · refine forall₂_congr fun rq hrq => ?_
      simp [hnone rq hrq]
    · constructor
      · intro h
        exact absurd (h rq hrq) (by simp [hr, hb])
      · intro h
        exact absurd (h rq hrq) hr

theorem meetsQuorums_exact_filed :
    let s := Mock.after [Mock.genesis .coreDeveloper (Mock.percent 30) 10 0, Mock.propose 8 1]
    ∃ info, s.projects.get 0 = some info ∧
      (meetsQuorums 0 info 0 s = true ↔ ∀ rq ∈ info.policy.requiredRoles.val,
        rq.Reached (s.roleStakeOf 0 rq.role) (s.tallyOf 0 rq.role).ayes) := by
  intro s
  obtain ⟨info, hproj, hroles⟩ := Option.map_eq_some_iff.mp (show (s.projects.get 0).map
    (fun info => decide (∀ rq ∈ info.policy.requiredRoles.val,
      ¬ rq.Blurred (s.roleStakeOf 0 rq.role) (s.tallyOf 0 rq.role).ayes)) = some true by
        decide +kernel)
  refine ⟨info, hproj, (meetsQuorums_exact_iff s 0 info 0 ?_ ?_).mpr (.inl ?_)⟩
  · intro r
    cases r <;> decide +kernel
  · intro r
    cases r <;> decide +kernel
  · exact of_decide_eq_true hroles

-- ---------------------------------------------------------------------------
-- A run with 128-bit balances
-- ---------------------------------------------------------------------------

namespace Mock

@[reducible] def Wide : Config where
  AccountId := Nat
  Signature := MockSignature
  verify sig message signer := signer == sig.signer && message == sig.message
  currency := Ledger.currency HoldReason Nat u128Max 1 .token
  maxBalance := u128Max
  maxBlockNumber := u64Max
  readsWrites _ _ := ⟨0, 0⟩

def wideBank : Ledger HoldReason Nat u128Max where
  free := ((StorageMap.empty.insert 1 (10 ^ 30)).insert 2 (10 ^ 38)).insert 8 1
  held := .empty
  fits := by decide +kernel

def wideStart : State Wide := { blockNumber := 1, balances := wideBank }

/-- Two core developers, the second with 250 million times the stake of the
first, one of whom files a release; half of their stake has to approve. -/
def wideRun : List (Action Wide) :=
  [.call .root (.projectGenesis ⟨[0x77, 0x69], by decide⟩
      ⟨[⟨1, .coreDeveloper, 4 * 10 ^ 29⟩, ⟨2, .coreDeveloper, 9 * 10 ^ 37⟩,
        ⟨8, .buildService, 0⟩], by decide⟩
      { requiredRoles := ⟨[⟨.coreDeveloper, half⟩], by decide⟩
        votingPeriod := 100
        enactmentDelay := 10 }
      { sigmaNeg := half, sigmaMal := half, deltaMax := 1000 } 0),
    .call (.signed 1) (.newRelease 0 version (attestation 8 1) (h 0x42)
      ⟨8, (attestation 8 1).signingPayload⟩)]

def wideState : State Wide := ((exec wideRun wideStart).get (by decide +kernel)).2

theorem reachable_wideState : Reachable wideState :=
  ⟨_, wideStart, ⟨1, wideBank, rfl, fun r a => StorageMap.getD_empty (r, a) 0⟩,
    exec_run (exec_get (by decide +kernel))⟩

end Mock

/-- The proposer's own aye, less than a hundred millionth of the stake, meets a
quorum of one half. -/
theorem meetsQuorums_inexact :
    Reachable Mock.wideState ∧ ∃ info, Mock.wideState.projects.get 0 = some info ∧
      (∀ r, Mock.wideState.roleStakeOf 0 r ≤ u128Max) ∧
      (∀ r, (Mock.wideState.tallyOf 0 r).ayes ≤ Mock.wideState.roleStakeOf 0 r) ∧
      meetsQuorums 0 info 0 Mock.wideState = true ∧
      ¬ ∀ rq ∈ info.policy.requiredRoles.val,
        rq.Reached (Mock.wideState.roleStakeOf 0 rq.role)
          (Mock.wideState.tallyOf 0 rq.role).ayes := by
  obtain ⟨info, hproj, hfields⟩ := Option.map_eq_some_iff.mp (show
    (Mock.wideState.projects.get 0).map (fun info => (meetsQuorums 0 info 0 Mock.wideState,
      decide (∀ rq ∈ info.policy.requiredRoles.val,
        rq.Reached (Mock.wideState.roleStakeOf 0 rq.role)
          (Mock.wideState.tallyOf 0 rq.role).ayes))) = some (true, false) by decide +kernel)
  simp only [Prod.mk.injEq, decide_eq_false_iff_not] at hfields
  refine ⟨Mock.reachable_wideState, info, hproj, ?_, ?_, hfields⟩
  · intro r
    cases r <;> decide +kernel
  · intro r
    cases r <;> decide +kernel

end Verigov
