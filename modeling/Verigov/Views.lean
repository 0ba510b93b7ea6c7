import Verigov.Sync
import Verigov.Pinned

/-!
# A client and a moving chain

Blocks come in between the queries of a synchronisation, so each is answered from
another state of the run. What a client of a project asks for only ever grows
(`Extends`), and therefore a synchronisation amid the blocks is one from the
single state in which the length of the log was read.
-/

namespace Verigov

open State Transition

/-- The states that answer the queries of one synchronisation, of which there are
two for each entry of the log. -/
structure Views (T : Config) where
  project : State T
  count : State T
  entry : Nat → State T
  builder : Nat → State T

section

variable {T : Config} (P : Platform T.AccountId) (host : Host) (v : Views T) (projectId : Nat)

/-- The loop's body of `syncProject`, its two queries apart. -/
def syncEntryAmid (projectName installDir : Text) (acc : List Installed × List Text) (i : Nat) :
    Tool (List Installed × List Text) := do
  let entry ← Tool.ofOption ((v.entry i).releaseLog.get (projectId, i))
  let version := P.u8aToString entry.version.val
  let target := installTarget installDir projectName version
  if ← upToDate P host target (P.u8aToHex entry.outputBinaryHash.toList) then
    return (acc.1, acc.2 ++ [version])
  else
    let x ← verifyAndInstall P host (v.builder i) projectId projectName entry installDir
    return (acc.1 ++ [x], acc.2)

def syncProjectAmid (installDir : Text) : Tool Synced := do
  let project ← match v.project.projects.get projectId with
    | some project => pure project
    | none => throw (.error ("project ".toList ++ (toString projectId).toList ++
        " not found on chain".toList))
  let projectName := P.u8aToString project.name.val
  let count := v.count.releaseCountOf projectId
  let (installed, skipped) ←
    (List.range count).foldlM (syncEntryAmid P host v projectId projectName installDir) ([], [])
  return { projectName, count, installed, skipped }

end

variable {T : Config} {P : Platform T.AccountId} {host : Host} {v : Views T}
  {s s' t : State T} {p : Nat} {tr : Trace T} {installDir projectName : Text}

-- ---------------------------------------------------------------------------
-- What a client asks for
-- ---------------------------------------------------------------------------

structure BelowMax (s : State T) : Prop where
  proposals : ProposalIdsBelowMax s
  projects : ProjectIdsBelowMax s
  releases : ReleaseCountsBelowMax s

/-- What the client of a project was told stays true. -/
structure Extends (p : Nat) (s s' : State T) : Prop where
  project : s'.projects.get p = s.projects.get p
  count : s.releaseCountOf p ≤ s'.releaseCountOf p
  log : ∀ i < s.releaseCountOf p, s'.releaseLog.get (p, i) = s.releaseLog.get (p, i)
  role : ∀ who, HasRole s' p who .buildService ↔ HasRole s p who .buildService

theorem Extends.refl (p : Nat) (s : State T) : Extends p s s :=
  ⟨rfl, Nat.le_refl _, fun _ _ => rfl, fun _ => Iff.rfl⟩

theorem Extends.trans (h : Extends p s s') (h' : Extends p s' t) : Extends p s t where
  project := h'.project.trans h.project
  count := Nat.le_trans h.count h'.count
  log i hi := (h'.log i (Nat.lt_of_lt_of_le hi h.count)).trans (h.log i hi)
  role who := (h'.role who).trans (h.role who)

theorem Step.extends {a : Action T} (h : Step s a s') (hf : FreshProject s a) (hs : LogOk s)
    (hs' : LogOk s') (hlt : ReleaseCountsBelowMax s) (hp : (s.projects.get p).isSome) :
    Extends p s s' := by
  have hlog : ∀ i < s.releaseCountOf p, s'.releaseLog.get (p, i) = s.releaseLog.get (p, i) := by
    intro i hi
    obtain ⟨e, he⟩ := Option.isSome_iff_exists.mp ((hs.defined p i).mpr hi)
    rw [he]
    exact h.append hs hlt he
  refine ⟨h.projects_get hf hp, Nat.le_of_not_lt fun hlt' => ?_, hlog, fun who => ?_⟩
  · have hthere := (hs.defined p _).mpr hlt'
    rw [← hlog _ hlt', hs'.defined] at hthere
    exact Nat.lt_irrefl _ hthere
  · exact ⟨h.hasRole_before hf hp, h.hasRole⟩

def Leads (s s' : State T) : Prop := ∃ tr, Run Step s tr s'

theorem Leads.refl (s : State T) : Leads s s := ⟨[], .nil⟩

theorem Leads.trans (h : Leads s s') (h' : Leads s' t) : Leads s t := by
  obtain ⟨tr, h⟩ := h
  obtain ⟨tr', h'⟩ := h'
  exact ⟨tr ++ tr', h.trans h'⟩

theorem Leads.reachable (h : Leads s s') (hs : Reachable s) : Reachable s' := by
  obtain ⟨tr, h⟩ := h
  obtain ⟨tr', h'⟩ := hs
  exact ⟨tr' ++ tr, h'.append h⟩

theorem exec_leads {as as' : List (Action T)} {tr' : Trace T} (h : exec as s = some (tr, s'))
    (h' : exec (as ++ as') s = some (tr', t)) : Leads s' t := by
  induction as generalizing s tr tr' with
  | nil =>
    cases h
    exact ⟨tr', exec_run h'⟩
  | cons a as ih =>
    simp only [List.cons_append, exec, Option.bind_eq_bind, Option.bind_eq_some_iff,
      Option.pure_def, Option.some.injEq, Prod.mk.injEq, Prod.exists] at h h'
    obtain ⟨m, ha, tr1, t1, has, rfl, rfl⟩ := h
    obtain ⟨m', ha', tr2, t2, has', rfl, rfl⟩ := h'
    obtain rfl : m = m' := Option.some.inj (ha.symm.trans ha')
    exact ih has has'

theorem Leads.extends (h : Leads s s') (hs : Reachable s) (hmax : BelowMax s')
    (hp : (s.projects.get p).isSome) : Extends p s s' := by
  obtain ⟨tr, h⟩ := h
  obtain ⟨tr0, h0⟩ := hs
  have hproposals := (along_append.mp ((h0.append h).freshProposal hmax.proposals).1)
  have hprojects := (along_append.mp ((h0.append h).freshProject hmax.projects).1).2
  refine (h.induct (I := fun _ t => ReleaseCountsBelowMax t → Extends p s t)
    (hproposals.2.and hprojects) (fun _ => .refl p s) ?_) hmax.releases
  rintro tr m a t hr hP hst ⟨hfp, hf⟩ ih hlt
  have hltm : ReleaseCountsBelowMax m := fun q => hst.count_lt (hlt q)
  have hm := ih hltm
  have hreach := h0.append hr
  have hfresh : Along FreshProposal (tr0 ++ tr) :=
    along_append.mpr ⟨hproposals.1, hP.mono fun _ _ h => h.1⟩
  have hlog := hreach.logOk hfresh hltm
  refine hm.trans (hst.extends hf hlog (hst.logOk hfp hlog hlt) hltm ?_)
  rwa [hm.project]

-- ---------------------------------------------------------------------------
-- One synchronisation
-- ---------------------------------------------------------------------------

/-- The client asks for the project, the length of the log, and then for each
entry and for the builder in its attestation. -/
structure Views.InOrder (v : Views T) : Prop where
  count : Leads v.project v.count
  entries : Leads v.count (v.entry 0)
  builder : ∀ i, Leads (v.entry i) (v.builder i)
  next : ∀ i, Leads (v.builder i) (v.entry (i + 1))

theorem Views.InOrder.entry (h : v.InOrder) (i : Nat) : Leads v.count (v.entry i) := by
  induction i with
  | zero => exact h.entries
  | succ i ih => exact (ih.trans (h.builder i)).trans (h.next i)

theorem BelowMax.before (hmax : BelowMax s') (h : Leads s s') : BelowMax s := by
  obtain ⟨tr, h⟩ := h
  induction h with
  | nil => exact hmax
  | snoc _ hst ih =>
    exact ih ⟨fun id hid => hmax.proposals id (hst.proposals_isSome hid),
      fun q hq => hmax.projects q (hst.projects_isSome hq),
      fun q => hst.count_lt (hmax.releases q)⟩

theorem verify_congr (hrole : ∀ who, HasRole s' p who .buildService ↔
    HasRole s p who .buildService) (entry : ReleaseEntry) :
    verify P host s' p entry = verify P host s p entry := by
  have hany : ∀ who, (s'.stakeholders.get (p, who)).any (·.role == .buildService) =
      (s.stakeholders.get (p, who)).any (·.role == .buildService) := by
    intro who
    rw [Bool.eq_iff_iff, ← hasRole_iff_any, ← hasRole_iff_any]
    exact hrole who
  unfold verify
  simp only [hany]

theorem syncEntry_congr {s : State T} {v : Views T} {i : Nat}
    (hlog : (v.entry i).releaseLog.get (p, i) = s.releaseLog.get (p, i))
    (hrole : ∀ who, HasRole (v.builder i) p who .buildService ↔ HasRole s p who .buildService)
    (acc : List Installed × List Text) :
    syncEntryAmid P host v p projectName installDir acc i =
      syncEntry P host s p projectName installDir acc i := by
  unfold syncEntryAmid syncEntry verifyAndInstall
  simp only [hlog, verify_congr hrole]

/-- While no counter is exhausted, a synchronisation amid the blocks does, in all that
it installs, returns or throws, what it does when the chain stands still after
the length of the log is read. -/
theorem syncProject_snapshot (P : Platform T.AccountId) (host : Host)
    (hs : Reachable v.project) (hv : v.InOrder) (hmax : ∀ i, BelowMax (v.builder i)) (p : Nat)
    (installDir : Text) :
    syncProjectAmid P host v p installDir =
      syncProject P host (if (v.project.projects.get p).isSome then v.count else v.project) p
        installDir := by
  cases hproject : v.project.projects.get p with
  | none =>
    rw [if_neg (by simp)]
    unfold syncProjectAmid syncProject
    rw [hproject]
    rfl
  | some project =>
    rw [if_pos (by simp)]
    have hp : (v.project.projects.get p).isSome := by rw [hproject]; rfl
    have hcount := hv.count.extends hs
      ((hmax 0).before (hv.entries.trans (hv.builder 0))) hp
    have hloop : ∀ projectName, (List.range (v.count.releaseCountOf p)).foldlM
        (syncEntryAmid P host v p projectName installDir) ([], []) =
        (List.range (v.count.releaseCountOf p)).foldlM
          (syncEntry P host v.count p projectName installDir) ([], []) := by
      intro projectName
      refine Tool.foldlM_congr (fun i hi acc => ?_) _
      have hentry := (hv.entry i).extends (hv.count.reachable hs)
        ((hmax i).before (hv.builder i)) (by rw [hcount.project]; exact hp)
      have hbuilder := ((hv.entry i).trans (hv.builder i)).extends (hv.count.reachable hs)
        (hmax i) (by rw [hcount.project]; exact hp)
      exact syncEntry_congr (hentry.log i (List.mem_range.mp hi)) hbuilder.role acc
    unfold syncProjectAmid syncProject
    rw [hproject, hcount.project, hproject]
    dsimp only
    rw [pure_bind, pure_bind]
    simp only [hloop]

-- ---------------------------------------------------------------------------
-- A run
-- ---------------------------------------------------------------------------

namespace Mock

def during (s s' : State Chain) : Views Chain := ⟨s, s', fun _ => s', fun _ => s'⟩

theorem during_inOrder {s s' : State Chain} (h : Leads s s') : (during s s').InOrder where
  count := h
  entries := .refl s'
  builder _ := .refl s'
  next _ := .refl s'

theorem during_belowMax {s s' : State Chain} (hmax : BelowMax s') (i : Nat) :
    BelowMax ((during s s').builder i) := hmax

theorem leads_blessed (releases more : List (List (Action Chain)))
    (h : (exec (found :: releases.flatten) launch).isSome)
    (h' : (exec (found :: (releases ++ more).flatten) launch).isSome) :
    Leads (blessed releases h) (blessed (releases ++ more) h') := by
  have hlist : (found :: releases.flatten) ++ more.flatten =
      found :: (releases ++ more).flatten := by
    rw [List.flatten_append, List.cons_append]
  exact exec_leads (exec_blessed releases h)
    ((congrArg (exec · launch) hlist).trans (exec_blessed (releases ++ more) h'))

def early : State Chain :=
  blessed [bless reissued first (Sha256.sha256 (shipped first)) .sr25519]

theorem leads_early : Leads opened early := leads_blessed [] _ _ _

theorem leads_distinct : Leads early distinct :=
  leads_blessed [bless reissued first (Sha256.sha256 (shipped first)) .sr25519] _ _ _

theorem belowMax_distinct : BelowMax distinct := by
  have h : ProposalIdsBelowMax distinct ∧ ProjectIdsBelowMax distinct ∧
      ReleaseCountsBelowMax distinct := by
    decide +kernel
  exact ⟨h.1, h.2.1, h.2.2⟩

end Mock

theorem syncProject_snapshot_during :
    syncProjectAmid Mock.mirror Mock.repoHost (Mock.during Mock.early Mock.distinct) 0
      Mock.installDir = syncProject Mock.mirror Mock.repoHost Mock.distinct 0 Mock.installDir := by
  have hsome : (Mock.early.projects.get 0).isSome := by decide +kernel
  have hs : Reachable (Mock.during Mock.early Mock.distinct).project := by
    dsimp only [Mock.during]
    exact Mock.leads_early.reachable ⟨_, Mock.reaches_blessed _⟩
  have h := syncProject_snapshot Mock.mirror Mock.repoHost hs
    (Mock.during_inOrder Mock.leads_distinct) (Mock.during_belowMax Mock.belowMax_distinct) 0
    Mock.installDir
  rw [if_pos (by simpa only [Mock.during] using hsome)] at h
  simpa only [Mock.during] using h

end Verigov
