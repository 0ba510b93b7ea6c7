import Verigov.Ballots

/-!
# Identifiers

The two id counters saturate at the largest 32-bit value, so the id there is
handed out again and again, and what it stood for is overwritten. `FreshProposal`
and `FreshProject` say of a step that this does not happen; a state whose ids
are all below the limit is reached by such steps only. Votes, tallies, stakes
and stakeholders are always those of an id in use.
-/

namespace Verigov

open State Transition

variable {T : Config} {s s' : State T} {id : Nat}

/-- A `new_release` gets an id that no proposal has. -/
def FreshProposal (s : State T) (a : Action T) : Prop :=
  a.isNewRelease → s.proposals.get s.nextProposalId = none

/-- A `project_genesis` gets an id that no project has. -/
def FreshProject (s : State T) (a : Action T) : Prop :=
  a.isProjectGenesis → s.projects.get s.nextProjectId = none

instance (s : State T) (a : Action T) : Decidable (FreshProposal s a) :=
  inferInstanceAs (Decidable (_ → _))

instance (s : State T) (a : Action T) : Decidable (FreshProject s a) :=
  inferInstanceAs (Decidable (_ → _))

def ProposalIdsBelowMax (s : State T) : Prop :=
  ∀ id, (s.proposals.get id).isSome → id < u32Max

def ProjectIdsBelowMax (s : State T) : Prop :=
  ∀ p, (s.projects.get p).isSome → p < u32Max

instance (s : State T) : Decidable (ProposalIdsBelowMax s) :=
  decidable_of_iff _ StorageMap.forall_keys

instance (s : State T) : Decidable (ProjectIdsBelowMax s) :=
  decidable_of_iff _ StorageMap.forall_keys

theorem Step.kept (h : Step s a s') (hf : FreshProposal s a)
    (hpr : s.proposals.get id = some pr) :
    ∃ status, s'.proposals.get id = some { pr with status } ∧
      Moves a s.blockNumber id pr status := by
  rcases h.proposal id with hfiled | ⟨h0, -⟩ | ⟨pr', st, h0, h1, hm⟩
  · obtain ⟨rfl, -, -, -, -, -, -, -, -, -⟩ := hfiled
    rw [hf rfl] at hpr
    cases hpr
  · rw [h0] at hpr
    cases hpr
  · rw [h0] at hpr
    cases hpr
    exact ⟨st, h1, hm⟩

theorem saturatingAdd_u32 (h : n < u32Max) : saturatingAdd u32Max n 1 = n + 1 :=
  saturatingAdd_eq h

-- ---------------------------------------------------------------------------
-- What a step does to the counters and to projects
-- ---------------------------------------------------------------------------

theorem Step.blockNumber (h : Step s a s') :
    s'.blockNumber = s.blockNumber ∨ (a = .block ∧ s'.blockNumber = s.blockNumber + 1) := by
  cases h with
  | block => exact .inr ⟨rfl, (nextBlock_frame s).2.1⟩
  | call origin c h => exact .inl (dispatch_frame h).blockNumber
  | failed => exact .inl rfl
  | other => exact .inl rfl

theorem newRelease_nextProposalId (h : newRelease origin p version att cid sig s = .ok s') :
    s'.nextProposalId = saturatingAdd u32Max s.nextProposalId 1 := by
  obtain ⟨who, info, x, y, balances, -, -, -, -, -, -, -, -, hv⟩ := newRelease_ok h
  exact (doVote_frame hv).nextProposalId

theorem Step.nextProposalId (h : Step s a s') :
    s'.nextProposalId = s.nextProposalId ∨
      ∃ origin p version att cid sig, a = .call origin (.newRelease p version att cid sig) ∧
        newRelease origin p version att cid sig s = .ok s' ∧
        s'.nextProposalId = saturatingAdd u32Max s.nextProposalId 1 := by
  cases h with
  | block => exact .inl (nextBlock_frame s).1.nextProposalId
  | failed => exact .inl rfl
  | other => exact .inl rfl
  | call origin c h =>
    cases c with
    | projectGenesis name xs policy slashing bond =>
      obtain ⟨s1, -, -, hs1, -, rfl⟩ := projectGenesis_ok h
      exact .inl (registerAll_frame hs1).nextProposalId
    | newRelease p version att cid sig =>
      exact .inr ⟨_, _, _, _, _, _, rfl, h, newRelease_nextProposalId h⟩
    | vote id' aye =>
      exact .inl (vote_frame h).nextProposalId
    | submitCounterAttestation id' rebuilt =>
      exact .inl (submitCounterAttestation_frame h).nextProposalId
    | closeExpired id' => exact .inl (closeExpired_frame h).nextProposalId

theorem Step.projects (h : Step s a s') :
    (s'.projects = s.projects ∧ s'.nextProjectId = s.nextProjectId) ∨
      ∃ origin name xs policy slashing bond,
        a = .call origin (.projectGenesis name xs policy slashing bond) ∧
        projectGenesis origin name xs policy slashing bond s = .ok s' ∧
        s'.projects = s.projects.insert s.nextProjectId ⟨name, policy, slashing, bond⟩ ∧
        s'.nextProjectId = saturatingAdd u32Max s.nextProjectId 1 := by
  cases h with
  | block => exact .inl ⟨(nextBlock_frame s).1.projects, (nextBlock_frame s).1.nextProjectId⟩
  | failed => exact .inl ⟨rfl, rfl⟩
  | other => exact .inl ⟨rfl, rfl⟩
  | call origin c h =>
    cases c with
    | projectGenesis name xs policy slashing bond =>
      obtain ⟨s1, -, -, hs1, -, rfl⟩ := projectGenesis_ok h
      refine .inr ⟨_, _, _, _, _, _, rfl, h, ?_, rfl⟩
      rw [← (registerAll_frame hs1).projects]
      rfl
    | newRelease p version att cid sig =>
      exact .inl ⟨(newRelease_frame h).projects, (newRelease_frame h).nextProjectId⟩
    | vote id' aye =>
      exact .inl ⟨(vote_frame h).projects, (vote_frame h).nextProjectId⟩
    | submitCounterAttestation id' rebuilt =>
      have hf := submitCounterAttestation_frame h
      exact .inl ⟨hf.projects, hf.nextProjectId⟩
    | closeExpired id' =>
      exact .inl ⟨(closeExpired_frame h).projects, (closeExpired_frame h).nextProjectId⟩

theorem Step.projects_isSome (h : Step s a s') (hp : (s.projects.get p).isSome) :
    (s'.projects.get p).isSome := by
  rcases h.projects with ⟨hsame, -⟩ | ⟨_, _, _, _, _, _, -, -, hput, -⟩
  · rwa [hsame]
  · rw [hput, StorageMap.get_insert]
    split
    · rfl
    · exact hp

theorem Step.projects_none (h : Step s a s') (hn : s'.projects.get p = none) :
    s.projects.get p = none := by
  by_contra hsome
  have hstill := h.projects_isSome (Option.isSome_iff_ne_none.mpr hsome)
  simp [hn] at hstill

theorem Step.projects_get (h : Step s a s') (hf : FreshProject s a)
    (hp : (s.projects.get p).isSome) : s'.projects.get p = s.projects.get p := by
  rcases h.projects with ⟨hsame, -⟩ | ⟨_, _, _, _, _, _, rfl, -, hput, -⟩
  · rw [hsame]
  · rw [hput, StorageMap.get_insert_ne]
    rintro rfl
    rw [hf rfl] at hp
    cases hp

-- ---------------------------------------------------------------------------
-- Fresh ids along a run
-- ---------------------------------------------------------------------------

/-- The ids from the counter on are not in use. -/
def ProposalsCounted (s : State T) : Prop :=
  ∀ id, s.nextProposalId ≤ id → s.proposals.get id = none

def ProjectsCounted (s : State T) : Prop :=
  ∀ p, s.nextProjectId ≤ p → s.projects.get p = none

theorem Step.proposalsCounted (h : Step s a s') (hmax : ProposalIdsBelowMax s')
    (hs : ProposalsCounted s) : ProposalsCounted s' := by
  intro id hid
  rcases h.nextProposalId with hn | ⟨origin, p, version, att, cid, sig, rfl, h', hn⟩
  · rw [hn] at hid
    rcases h.proposal id with hfiled | ⟨-, hnone⟩ | ⟨pr, _, hpr, -, -⟩
    · -- A filed proposal moves the counter.
      obtain ⟨rfl, -, -, -, -, -, -, -, -, hput⟩ := hfiled
      cases h with
      | call _ _ h =>
        have hmoved := newRelease_nextProposalId h
        rw [saturatingAdd_u32 (hmax s.nextProposalId (by simp [hput]))] at hmoved
        omega
    · exact hnone
    · rw [hs id hid] at hpr
      cases hpr
  · obtain ⟨-, -, -, -, -, -, -, -, -, hpr⟩ := newRelease_filed h'
    rw [hn, saturatingAdd_u32 (hmax s.nextProposalId (by simp [hpr]))] at hid
    rw [newRelease_other h' (by omega)]
    exact hs id (by omega)

theorem Step.projectsCounted (h : Step s a s') (hmax : ProjectIdsBelowMax s')
    (hs : ProjectsCounted s) : ProjectsCounted s' := by
  intro p hp
  rcases h.projects with ⟨hsame, hn⟩ | ⟨_, _, _, _, _, _, -, -, hput, hn⟩
  · rw [hsame]
    exact hs p (hn ▸ hp)
  · rw [hn, saturatingAdd_u32 (hmax s.nextProjectId (by simp [hput]))] at hp
    rw [hput, StorageMap.get_insert_ne _ _ (by omega)]
    exact hs p (by omega)

/-- Below the limit, the counters hand out unused ids only. -/
theorem Reaches.freshProposal (h : Reaches tr s) (hmax : ProposalIdsBelowMax s) :
    Along FreshProposal tr ∧ ProposalsCounted s := by
  obtain ⟨s0, ⟨n, b, rfl, -⟩, hr⟩ := h
  refine hr.toward (I := fun tr t => Along FreshProposal tr ∧ ProposalsCounted t) hmax
    (fun m a t hst ht id hid => ht id (hst.proposals_isSome hid))
    ⟨along_nil, fun id _ => StorageMap.get_empty id⟩ ?_
  rintro tr m a t hst ht ⟨hfresh, hm⟩
  refine ⟨?_, hst.proposalsCounted ht hm⟩
  simp only [along_append, along_cons, along_nil, and_true, hfresh, true_and]
  exact fun _ => hm _ (Nat.le_refl _)

theorem Reaches.freshAlong {t : State T} (h : Reaches tr s) (hr : Run Step s tr' t)
    (hmax : ProposalIdsBelowMax t) : Along FreshProposal tr' :=
  (along_append.mp ((h.append hr).freshProposal hmax).1).2

theorem Reaches.freshProject (h : Reaches tr s) (hmax : ProjectIdsBelowMax s) :
    Along FreshProject tr ∧ ProjectsCounted s := by
  obtain ⟨s0, ⟨n, b, rfl, -⟩, hr⟩ := h
  refine hr.toward (I := fun tr t => Along FreshProject tr ∧ ProjectsCounted t) hmax
    (fun m a t hst ht p hp => ht p (hst.projects_isSome hp))
    ⟨along_nil, fun p _ => StorageMap.get_empty p⟩ ?_
  rintro tr m a t hst ht ⟨hfresh, hm⟩
  refine ⟨?_, hst.projectsCounted ht hm⟩
  simp only [along_append, along_cons, along_nil, and_true, hfresh, true_and]
  exact fun _ => hm _ (Nat.le_refl _)

-- ---------------------------------------------------------------------------
-- What an id in use has
-- ---------------------------------------------------------------------------

def HasProject (s : State T) : Prop :=
  ∀ id pr, s.proposals.get id = some pr → (s.projects.get pr.projectId).isSome

theorem Step.hasProject (h : Step s a s') (hs : HasProject s) : HasProject s' := by
  intro id pr hpr
  apply h.projects_isSome
  rcases h.proposal id with ⟨-, hproj, -, -, -, -, -, -, -, hf⟩ | ⟨-, hn⟩ | ⟨pr0, st, h0, h1, -⟩
  · rw [hf] at hpr
    cases hpr
    simp [newProposal, hproj]
  · rw [hn] at hpr
    cases hpr
  · rw [h1] at hpr
    cases hpr
    exact hs id pr0 h0

theorem Reaches.hasProject (h : Reaches tr s) : HasProject s := by
  obtain ⟨s0, ⟨n, b, rfl, -⟩, hr⟩ := h
  refine hr.always ?_ fun _ _ _ hst => hst.hasProject
  intro id pr hpr
  simp at hpr

structure BallotsOnProposals (s : State T) : Prop where
  vote : ∀ id a, s.proposals.get id = none → s.votes.get (id, a) = none
  tally : ∀ id r, s.proposals.get id = none → s.tallyOf id r = {}

theorem Step.ballotsOnProposals (h : Step s a s') (hs : BallotsOnProposals s) :
    BallotsOnProposals s' := by
  refine ⟨fun id a' hn => ?_, fun id r hn => ?_⟩
  · have h0 := hs.vote id a' (h.proposals_none hn)
    rcases h.ballot with ⟨-, hvotes, -⟩ | ⟨c, -, hdone⟩
    · rwa [hvotes]
    · rw [hdone.votes, StorageMap.get_insert_ne]
      · exact h0
      · rintro ⟨⟩
        obtain ⟨pr, hpr, -⟩ := hdone.proposal
        rw [hn] at hpr
        cases hpr
  · have h0 := hs.tally id r (h.proposals_none hn)
    unfold tallyOf at h0 ⊢
    rcases h.ballot with ⟨-, -, htallies⟩ | ⟨c, -, hdone⟩
    · rwa [htallies]
    · rw [hdone.tallies, StorageMap.getD_insert, if_neg]
      · exact h0
      · rintro ⟨⟩
        obtain ⟨pr, hpr, -⟩ := hdone.proposal
        rw [hn] at hpr
        cases hpr

theorem Reaches.ballotsOnProposals (h : Reaches tr s) : BallotsOnProposals s := by
  obtain ⟨s0, ⟨n, b, rfl, -⟩, hr⟩ := h
  refine hr.always ?_ fun _ _ _ hst => hst.ballotsOnProposals
  exact ⟨fun _ _ _ => StorageMap.get_empty _, fun _ _ _ => StorageMap.getD_empty _ _⟩

end Verigov
