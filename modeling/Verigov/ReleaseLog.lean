import Verigov.Ids
import Verigov.Mock

/-!
# The Official Release Log

The log of a project is a sequence kept in two maps: a counter and the entries
below it. Only the hook writes it, and what it appends is the proposal it
settles in the same breath, so that entries and enacted proposals match one to
one (`LogOk`).
-/

namespace Verigov

open State Transition

variable {T : Config} {s s' : State T} {id : Nat}

/-- The entry is the one that enacting the proposal of project `p` appends. -/
structure ReleaseEntry.Records (e : ReleaseEntry) (p : Nat) (pr : Proposal AccountId) : Prop where
  enacted : pr.status = .enacted
  project : pr.projectId = p
  version : pr.version = e.version
  sourceCommitHash : pr.attestation.sourceCommitHash = e.sourceCommitHash
  outputBinaryHash : pr.attestation.outputBinaryHash = e.outputBinaryHash
  attestationCid : pr.attestationCid = e.attestationCid
  submittedAt : pr.submittedAt ≤ e.enactedAt

structure LogSound (s : State T) : Prop where
  entry : ∀ p i e, s.releaseLog.get (p, i) = some e →
    ∃ pr, s.proposals.get e.proposalId = some pr ∧ e.Records p pr
  submitted : ∀ id pr, s.proposals.get id = some pr → pr.submittedAt ≤ s.blockNumber

structure LogOk (s : State T) : Prop extends LogSound s where
  defined : ∀ p i, (s.releaseLog.get (p, i)).isSome ↔ i < s.releaseCountOf p
  injective : ∀ k k' e e', s.releaseLog.get k = some e → s.releaseLog.get k' = some e' →
    e.proposalId = e'.proposalId → k = k'
  surjective : ∀ id pr, s.proposals.get id = some pr → pr.status = .enacted →
    ∃ k e, s.releaseLog.get k = some e ∧ e.proposalId = id
  ordered : ∀ p i j e f, i ≤ j → s.releaseLog.get (p, i) = some e →
    s.releaseLog.get (p, j) = some f → e.enactedAt ≤ f.enactedAt
  past : ∀ k e, s.releaseLog.get k = some e → e.enactedAt ≤ s.blockNumber

/-- A step that appends nothing and settles nothing as enacted. -/
structure LogSame (s s' : State T) : Prop where
  releaseLog : s'.releaseLog = s.releaseLog
  releaseCount : s'.releaseCount = s.releaseCount
  blockNumber : s.blockNumber ≤ s'.blockNumber
  enacted : ∀ id pr, pr.status = .enacted →
    (s'.proposals.get id = some pr ↔ s.proposals.get id = some pr)
  submitted : ∀ id pr, s'.proposals.get id = some pr → pr.submittedAt ≤ s'.blockNumber

theorem LogSame.logSound (h : LogSame s s') (hs : LogSound s) : LogSound s' := by
  refine ⟨fun p i e he => ?_, h.submitted⟩
  rw [h.releaseLog] at he
  obtain ⟨pr, hpr, hrec⟩ := hs.entry p i e he
  exact ⟨pr, (h.enacted _ pr hrec.enacted).mpr hpr, hrec⟩

theorem LogSame.logOk (h : LogSame s s') (hs : LogOk s) : LogOk s' := by
  refine ⟨h.logSound hs.toLogSound, ?_, ?_, ?_, ?_, ?_⟩
  · intro p i
    unfold releaseCountOf
    rw [h.releaseLog, h.releaseCount]
    exact hs.defined p i
  · rw [h.releaseLog]
    exact hs.injective
  · intro id pr hpr hst
    rw [h.releaseLog]
    exact hs.surjective id pr ((h.enacted id pr hst).mp hpr) hst
  · rw [h.releaseLog]
    exact hs.ordered
  · intro k e he
    rw [h.releaseLog] at he
    exact Nat.le_trans (hs.past k e he) h.blockNumber

-- ---------------------------------------------------------------------------
-- The hook
-- ---------------------------------------------------------------------------

def entryOf (id : Nat) (pr : Proposal T.AccountId) (now : Nat) : ReleaseEntry where
  proposalId := id
  version := pr.version
  sourceCommitHash := pr.attestation.sourceCommitHash
  outputBinaryHash := pr.attestation.outputBinaryHash
  attestationCid := pr.attestationCid
  enactedAt := now

theorem logRelease_get (s : State T) (id now : Nat) (pr : Proposal T.AccountId)
    (k : Nat × Nat) :
    (logRelease id pr now s).releaseLog.get k =
      if k = (pr.projectId, s.releaseCountOf pr.projectId) then some (entryOf id pr now)
      else s.releaseLog.get k :=
  StorageMap.get_insert ..

theorem logRelease_count (s : State T) (id now : Nat) (pr : Proposal T.AccountId) (p : Nat) :
    (logRelease id pr now s).releaseCountOf p =
      if p = pr.projectId then saturatingAdd u32Max (s.releaseCountOf p) 1
      else s.releaseCountOf p := by
  refine (StorageMap.getD_insert ..).trans ?_
  split
  · rename_i h
    rw [h]
  · rfl

theorem logRelease_proposals (s : State T) (id now : Nat) (pr : Proposal T.AccountId) (id' : Nat) :
    (logRelease id pr now s).proposals.get id' =
      if id' = id then some { pr with status := .enacted } else s.proposals.get id' :=
  StorageMap.get_insert ..

theorem logRelease_get_cases
    (h : (logRelease id pr now s).releaseLog.get k = some e) :
    (k = (pr.projectId, s.releaseCountOf pr.projectId) ∧ e = entryOf id pr now) ∨
      s.releaseLog.get k = some e := by
  rw [logRelease_get] at h
  split at h
  · rename_i hk
    cases h
    exact .inl ⟨hk, rfl⟩
  · exact .inr h

theorem LogSound.not_logged (hs : LogSound s) (hpr : s.proposals.get id = some pr)
    (hst : pr.status = .approved e) (hk : s.releaseLog.get k = some f) : f.proposalId ≠ id := by
  rintro rfl
  obtain ⟨pr', hpr', hrec⟩ := hs.entry k.1 k.2 f hk
  rw [hpr] at hpr'
  cases hpr'
  have hen := hrec.enacted
  rw [hst] at hen
  cases hen

theorem logRelease_logSound (hs : LogSound s) (hpr : s.proposals.get id = some pr)
    (hst : pr.status = .approved e) : LogSound (logRelease id pr s.blockNumber s) := by
  refine ⟨fun p i f hf => ?_, fun id' pr' hpr' => ?_⟩
  · rw [logRelease_proposals]
    rcases logRelease_get_cases hf with ⟨hk, rfl⟩ | hf
    · cases hk
      exact ⟨_, if_pos rfl, rfl, rfl, rfl, rfl, rfl, rfl, hs.submitted id pr hpr⟩
    · rw [if_neg (hs.not_logged hpr hst hf)]
      exact hs.entry p i f hf
  · rw [logRelease_proposals] at hpr'
    split at hpr'
    · cases hpr'
      exact hs.submitted id pr hpr
    · exact hs.submitted id' pr' hpr'

theorem logRelease_logOk (hs : LogOk s) (hpr : s.proposals.get id = some pr)
    (hst : pr.status = .approved e) (hlt : s.releaseCountOf pr.projectId < u32Max) :
    LogOk (logRelease id pr s.blockNumber s) := by
  have hnew := fun k f => hs.toLogSound.not_logged (k := k) (f := f) hpr hst
  have hkey : ∀ k f, s.releaseLog.get k = some f →
      k ≠ (pr.projectId, s.releaseCountOf pr.projectId) := by
    rintro k f hf rfl
    have hdef := (hs.defined _ _).mp (Option.isSome_iff_exists.mpr ⟨f, hf⟩)
    exact Nat.lt_irrefl _ hdef
  refine ⟨logRelease_logSound hs.toLogSound hpr hst, ?_, ?_, ?_, ?_, ?_⟩
  · intro p i
    rw [logRelease_get, logRelease_count]
    have hdef := hs.defined p i
    by_cases hp : p = pr.projectId
    · subst hp
      rw [if_pos rfl, saturatingAdd_u32 hlt]
      by_cases hi : i = s.releaseCountOf pr.projectId
      · subst hi
        simp
      · rw [if_neg (by simpa using hi), hdef]
        omega
    · rw [if_neg (by simp [hp]), if_neg hp, hdef]
  · intro k k' f f' hf hf' heq
    rcases logRelease_get_cases hf with ⟨rfl, rfl⟩ | hf <;>
      rcases logRelease_get_cases hf' with ⟨rfl, rfl⟩ | hf'
    · rfl
    · exact absurd heq.symm (hnew _ _ hf')
    · exact absurd heq (hnew _ _ hf)
    · exact hs.injective k k' f f' hf hf' heq
  · intro id' pr' hpr' hst'
    rw [logRelease_proposals] at hpr'
    split at hpr'
    · rename_i hid
      exact ⟨_, _, (logRelease_get ..).trans (if_pos rfl), hid.symm⟩
    · obtain ⟨k, f, hf, hid⟩ := hs.surjective id' pr' hpr' hst'
      exact ⟨k, f, (logRelease_get ..).trans ((if_neg (hkey k f hf)).trans hf), hid⟩
  · intro p i j f g hij hf hg
    rcases logRelease_get_cases hg with ⟨-, rfl⟩ | hg
    · rcases logRelease_get_cases hf with ⟨-, rfl⟩ | hf
      · exact Nat.le_refl _
      · exact hs.past _ f hf
    · rcases logRelease_get_cases hf with ⟨hk, rfl⟩ | hf
      · -- An older entry has a smaller index than the new one.
        cases hk
        have hdef := (hs.defined _ _).mp (Option.isSome_iff_exists.mpr ⟨g, hg⟩)
        omega
      · exact hs.ordered p i j f g hij hf hg
  · intro k f hf
    rcases logRelease_get_cases hf with ⟨-, rfl⟩ | hf
    · exact Nat.le_refl _
    · exact hs.past k f hf

theorem revokeAtEnactment_logSame (hs : LogSound s) (hpr : s.proposals.get id = some pr)
    (hst : pr.status = .approved e) : LogSame s (revokeAtEnactment id s) := by
  refine ⟨rfl, rfl, Nat.le_refl _, ?_, ?_⟩
  · intro id' pr' hen
    rw [revokeAtEnactment_get]
    by_cases hid : id' = id
    · subst hid
      rw [withStatus_self hpr, hpr]
      constructor
      · rintro ⟨⟩
        cases hen
      · rintro ⟨⟩
        rw [hst] at hen
        cases hen
    · rw [withStatus_ne hid]
  · intro id' pr' hpr'
    rw [revokeAtEnactment_get] at hpr'
    by_cases hid : id' = id
    · subst hid
      rw [withStatus_self hpr] at hpr'
      cases hpr'
      exact hs.submitted id' pr hpr
    · rw [withStatus_ne hid] at hpr'
      exact hs.submitted id' pr' hpr'

theorem enact_logSound (hs : LogSound s) : LogSound (enact id s.blockNumber s) := by
  rcases enact_cases id s.blockNumber s with
    ⟨pr, e, info, hpr, hst, -, ⟨-, heq⟩ | ⟨-, heq⟩⟩ | ⟨heq, -⟩ <;> rw [heq]
  · exact logRelease_logSound hs hpr hst
  · exact (revokeAtEnactment_logSame hs hpr hst).logSound hs
  · exact hs

/-- Enacting keeps the log in order as long as the counter does not saturate. -/
theorem enact_logOk (hs : LogOk s)
    (hlt : ∀ p, (enact id s.blockNumber s).releaseCountOf p < u32Max) :
    LogOk (enact id s.blockNumber s) := by
  rcases enact_cases id s.blockNumber s with
    ⟨pr, e, info, hpr, hst, -, ⟨-, heq⟩ | ⟨-, heq⟩⟩ | ⟨heq, -⟩ <;> rw [heq] at hlt ⊢
  · have hmax := hlt pr.projectId
    rw [logRelease_count, if_pos rfl] at hmax
    refine logRelease_logOk hs hpr hst ?_
    unfold saturatingAdd at hmax
    omega
  · exact (revokeAtEnactment_logSame hs.toLogSound hpr hst).logOk hs
  · exact hs

theorem enact_count (id now : Nat) (s : State T) (p : Nat) :
    (s.releaseCountOf p ≤ u32Max → s.releaseCountOf p ≤ (enact id now s).releaseCountOf p) ∧
      ((enact id now s).releaseCountOf p < u32Max → s.releaseCountOf p < u32Max) := by
  rcases enact_cases id now s with ⟨pr, e, info, hpr, hst, -, ⟨-, heq⟩ | ⟨-, heq⟩⟩ | ⟨heq, -⟩ <;>
    rw [heq]
  · rw [logRelease_count]
    unfold saturatingAdd
    split <;> omega
  · exact ⟨fun _ => Nat.le_refl _, fun h => h⟩
  · exact ⟨fun _ => Nat.le_refl _, fun h => h⟩

theorem takeSlot_logSame (hs : LogSound s) : LogSame s (takeSlot s) :=
  ⟨rfl, rfl, Nat.le_succ _, fun _ _ _ => Iff.rfl,
    fun id pr hpr => Nat.le_succ_of_le (hs.submitted id pr hpr)⟩

theorem nextBlock_logSound (hs : LogSound s) : LogSound (nextBlock s) := by
  refine (nextBlock_induct (I := fun _ m => m.blockNumber = s.blockNumber + 1 ∧ LogSound m)
    ⟨rfl, (takeSlot_logSame hs).logSound hs⟩ ?_).2
  rintro id ids m ⟨hn, hm⟩
  rw [← hn]
  exact ⟨(enact_frame id _ m).2.1, enact_logSound hm⟩

theorem nextBlock_logOk (hs : LogOk s) (hlt : ∀ p, (nextBlock s).releaseCountOf p < u32Max) :
    LogOk (nextBlock s) := by
  refine (nextBlock_induct (I := fun _ m => m.blockNumber = s.blockNumber + 1 ∧
    ((∀ p, m.releaseCountOf p < u32Max) → LogOk m))
    ⟨rfl, fun _ => (takeSlot_logSame hs.toLogSound).logOk hs⟩ ?_).2 hlt
  rintro id ids m ⟨hn, hm⟩
  refine ⟨(enact_frame id _ m).2.1.trans hn, fun hlt' => ?_⟩
  rw [← hn] at hlt' ⊢
  exact enact_logOk (hm fun p => (enact_count id _ m p).2 (hlt' p)) hlt'

theorem nextBlock_append (hs : LogOk s) (hlt : ∀ p, s.releaseCountOf p < u32Max)
    (hk : s.releaseLog.get k = some e) : (nextBlock s).releaseLog.get k = some e := by
  obtain ⟨p, i⟩ := k
  have hi : i < s.releaseCountOf p := (hs.defined p i).mp (Option.isSome_iff_exists.mpr ⟨e, hk⟩)
  have hle : i < (nextBlock s).releaseCountOf p ∧ (nextBlock s).releaseCountOf p ≤ u32Max ∧
      (nextBlock s).releaseLog.get (p, i) = some e := by
    refine nextBlock_induct (I := fun _ m => i < m.releaseCountOf p ∧ m.releaseCountOf p ≤ u32Max ∧
      m.releaseLog.get (p, i) = some e) ⟨hi, Nat.le_of_lt (hlt p), hk⟩ ?_
    rintro id ids m ⟨hmi, hmax, hm⟩
    rcases enact_cases id (s.blockNumber + 1) m with
      ⟨pr, e', info, hpr, hst, -, ⟨-, heq⟩ | ⟨-, heq⟩⟩ | ⟨heq, -⟩ <;> rw [heq]
    · rw [logRelease_count, logRelease_get]
      refine ⟨?_, ?_, ?_⟩
      · unfold saturatingAdd
        split <;> omega
      · unfold saturatingAdd
        split <;> omega
      · rw [if_neg, hm]
        rintro ⟨⟩
        exact Nat.lt_irrefl _ hmi
    · exact ⟨hmi, hmax, hm⟩
    · exact ⟨hmi, hmax, hm⟩
  exact hle.2.2

-- ---------------------------------------------------------------------------
-- Every step
-- ---------------------------------------------------------------------------

/-- Outside the hook nothing becomes enacted, and what is enacted stays so. -/
theorem Step.enacted_iff (h : Step s a s') (hf : FreshProposal s a) (ha : a ≠ .block)
    (hst : pr.status = .enacted) :
    s'.proposals.get id = some pr ↔ s.proposals.get id = some pr := by
  rcases h.proposal id with hfiled | ⟨h0, h1⟩ | ⟨pr0, st, h0, h1, hm⟩
  · obtain ⟨rfl, -, -, -, -, -, -, -, hor, hput⟩ := hfiled
    rw [hput, hf rfl]
    constructor
    · rintro ⟨⟩
      rcases hor with rfl | ⟨e, rfl⟩ <;> cases hst
    · rintro ⟨⟩
  · rw [h0, h1]
  · rw [h0, h1]
    constructor
    · rintro ⟨⟩
      cases hm with
      | stay => rfl
      | enact hb => exact absurd hb ha
      | _ => cases hst
    · rintro ⟨⟩
      have hclosed : pr.status.isOpen = false := by rw [hst]; rfl
      rw [hm.closed hclosed]

theorem Step.submitted (h : Step s a s')
    (hs : ∀ id pr, s.proposals.get id = some pr → pr.submittedAt ≤ s.blockNumber) (id : Nat)
    (pr : Proposal T.AccountId) (hpr : s'.proposals.get id = some pr) :
    pr.submittedAt ≤ s'.blockNumber := by
  have hn : s.blockNumber ≤ s'.blockNumber := by
    rcases h.blockNumber with hn | ⟨-, hn⟩ <;> omega
  refine Nat.le_trans ?_ hn
  rcases h.proposal id with ⟨-, -, -, -, -, -, -, -, -, hput⟩ | ⟨-, h1⟩ | ⟨pr0, st, h0, h1, -⟩
  · rw [hput] at hpr
    cases hpr
    exact Nat.le_refl _
  · rw [h1] at hpr
    cases hpr
  · rw [h1] at hpr
    cases hpr
    exact hs id pr0 h0

theorem Step.logSame (h : Step s a s') (hf : FreshProposal s a) (ha : a ≠ .block)
    (hs : LogSound s) : LogSame s s' := by
  have hfr := h.callFrame ha
  exact ⟨hfr.releaseLog, hfr.releaseCount, Nat.le_of_eq hfr.blockNumber.symm,
    fun _ _ hst => h.enacted_iff hf ha hst, h.submitted hs.submitted⟩

theorem Step.logSound (h : Step s a s') (hf : FreshProposal s a) (hs : LogSound s) :
    LogSound s' := by
  by_cases ha : a = .block
  · subst ha
    cases h
    exact nextBlock_logSound hs
  · exact (h.logSame hf ha hs).logSound hs

theorem Step.logOk (h : Step s a s') (hf : FreshProposal s a) (hs : LogOk s)
    (hlt : ∀ p, s'.releaseCountOf p < u32Max) : LogOk s' := by
  by_cases ha : a = .block
  · subst ha
    cases h
    exact nextBlock_logOk hs hlt
  · exact (h.logSame hf ha hs.toLogSound).logOk hs

theorem Step.append (h : Step s a s') (hs : LogOk s) (hlt : ∀ p, s.releaseCountOf p < u32Max)
    (hk : s.releaseLog.get k = some e) : s'.releaseLog.get k = some e := by
  by_cases ha : a = .block
  · subst ha
    cases h
    exact nextBlock_append hs hlt hk
  · rwa [(h.callFrame ha).releaseLog]

theorem Step.count_lt (h : Step s a s') (hlt : s'.releaseCountOf p < u32Max) :
    s.releaseCountOf p < u32Max := by
  by_cases ha : a = .block
  · subst ha
    cases h
    refine nextBlock_induct (I := fun _ m => m.releaseCountOf p < u32Max →
      s.releaseCountOf p < u32Max) (fun h => h) ?_ hlt
    intro id ids m hm hlt'
    exact hm ((enact_count id _ m p).2 hlt')
  · unfold releaseCountOf at hlt ⊢
    rwa [(h.callFrame ha).releaseCount] at hlt

theorem Reaches.logSound (h : Reaches tr s) (hf : Along FreshProposal tr) : LogSound s := by
  obtain ⟨s0, ⟨n, b, rfl, -⟩, hr⟩ := h
  refine hr.invariant hf ⟨?_, ?_⟩ fun _ _ _ hst hfresh => hst.logSound hfresh
  · simp
  · simp

theorem Reaches.logOk (h : Reaches tr s) (hf : Along FreshProposal tr)
    (hlt : ∀ p, s.releaseCountOf p < u32Max) : LogOk s := by
  obtain ⟨s0, ⟨n, b, rfl, -⟩, hr⟩ := h
  refine hr.induct (I := fun _ t => (∀ p, t.releaseCountOf p < u32Max) → LogOk t) hf ?_ ?_ hlt
  · intro _
    refine ⟨⟨?_, ?_⟩, ?_, ?_, ?_, ?_, ?_⟩ <;> simp [releaseCountOf]
  · intro tr m a t _ _ hst hfresh hm hlt'
    exact hst.logOk hfresh (hm fun p => hst.count_lt (hlt' p)) hlt'

def ReleaseCountsBelowMax (s : State T) : Prop := ∀ p, s.releaseCountOf p < u32Max

instance (s : State T) : Decidable (ReleaseCountsBelowMax s) :=
  decidable_of_iff (∀ e ∈ s.releaseCount.toFinmap.entries, e.2 < u32Max)
    (StorageMap.forall_getD (P := (· < u32Max)) (by decide))

/-- The log of a project has no gaps and is only ever appended to. Its entries are
the enacted proposals of the project, each once, in the order of their
enactment. -/
theorem releaseLog_appendOnly (h : Reachable s) (hids : ProposalIdsBelowMax s)
    (hcount : ReleaseCountsBelowMax s) :
    (∀ p i, (s.releaseLog.get (p, i)).isSome ↔ i < s.releaseCountOf p) ∧
    (∀ a s' k e, Step s a s' → s.releaseLog.get k = some e → s'.releaseLog.get k = some e) ∧
    (∀ p i e, s.releaseLog.get (p, i) = some e →
      ∃ pr, s.proposals.get e.proposalId = some pr ∧ e.Records p pr) ∧
    (∀ id pr, s.proposals.get id = some pr → pr.status = .enacted →
      ∃! k, ∃ e, s.releaseLog.get k = some e ∧ e.proposalId = id) ∧
    ∀ p i j e f, i ≤ j → s.releaseLog.get (p, i) = some e → s.releaseLog.get (p, j) = some f →
      e.enactedAt ≤ f.enactedAt := by
  obtain ⟨tr, hr⟩ := h
  have hlog := hr.logOk (hr.freshProposal hids).1 hcount
  refine ⟨hlog.defined, fun a s' k e hst hk => hst.append hlog hcount hk, hlog.entry, ?_,
    hlog.ordered⟩
  intro id pr hpr hst
  obtain ⟨k, e, hk, hid⟩ := hlog.surjective id pr hpr hst
  refine ⟨k, ⟨e, hk, hid⟩, ?_⟩
  rintro k' ⟨e', hk', hid'⟩
  exact hlog.injective k' k e' e hk' hk (hid'.trans hid.symm)

theorem releaseLog_appendOnly_two :
    let s := Mock.after [Mock.genesis .coreDeveloper (Mock.percent 30) 1 7, Mock.propose 8 1,
      Mock.propose 9 2, .block]
    (s.releaseLog.get (0, 1)).isSome ∧ (s.releaseLog.get (0, 2)).isSome = false ∧
      ∃! k, ∃ e, s.releaseLog.get k = some e ∧ e.proposalId = 1 := by
  intro s
  have h := releaseLog_appendOnly (s := s) ⟨_, Mock.reaches _⟩ (by decide +kernel)
    (by decide +kernel)
  obtain ⟨pr, hpr, hst⟩ : ∃ pr, s.proposals.get 1 = some pr ∧ pr.status = .enacted :=
    ⟨(s.proposals.get 1).get (by decide +kernel), by simp, by decide +kernel⟩
  exact ⟨(h.1 0 1).mpr (by decide +kernel), by decide +kernel, h.2.2.2.1 1 pr hpr hst⟩

end Verigov
