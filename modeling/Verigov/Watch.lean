import Verigov.Views

/-!
# Watching a project

The client's `--watch` loop, one synchronisation after the other while the chain
moves on. As long as no two entries want one place, every entry that was missing
at the start is installed exactly once over the whole loop, in the order of the
log, and none that was there.
-/

namespace Verigov

open State Transition Path

section

variable {T : Config} (P : Platform T.AccountId) (host : Host) (projectId : Nat)

/-- The loop, with what it saw of the chain in each round; a round that throws ends it. -/
def watch (installDir : Text) (rounds : List (Views T)) : Tool (List Synced) :=
  rounds.mapM fun v => syncProjectAmid P host v projectId installDir

end

def missing (P : Platform AccountId) (host : Host) (installDir projectName : Text) (d : Disk)
    (e : ReleaseEntry) : Bool :=
  contents P d (resolve host.cwd (targetOf P installDir projectName e)) != some e.outputBinaryHash

/-- No entry writes where the binary of another belongs. -/
def Apart (P : Platform AccountId) (host : Host) (installDir projectName : Text)
    (es : List ReleaseEntry) : Prop :=
  (es.map (placement P host installDir projectName)).Pairwise fun e e' =>
    e'.place ≠ e.place ∧ e'.beside ≠ e.place ∧ e.beside ≠ e'.place

variable {T : Config} {P : Platform T.AccountId} {host : Host} {v : Views T}
  {s s' t : State T} {p : Nat} {tr : Trace T} {installDir projectName : Text} {e e' : ReleaseEntry}
  {es es' : List ReleaseEntry} {d d' : Disk} {acc acc' : List Installed × List Text}

-- ---------------------------------------------------------------------------
-- Placing apart
-- ---------------------------------------------------------------------------

theorem Apart.append (h : Apart P host installDir projectName (es ++ es')) :
    Apart P host installDir projectName es ∧ Apart P host installDir projectName es' := by
  unfold Apart at h
  rw [List.map_append, List.pairwise_append] at h
  exact ⟨h.1, h.2.1⟩

theorem Apart.missing_eq (h : Apart P host installDir projectName (es ++ es'))
    (hplaced : contents P d' = Placement.applyAll (es.map (placement P host installDir projectName))
      (contents P d)) (he : e ∈ es') :
    missing P host installDir projectName d' e = missing P host installDir projectName d e := by
  unfold missing
  unfold Apart at h
  rw [List.map_append, List.pairwise_append] at h
  rw [hplaced,
    Placement.applyAll_other (k := resolve host.cwd (targetOf P installDir projectName e))]
  intro x hx
  obtain ⟨hplace, -, hbeside⟩ := h.2.2 x hx _ (List.mem_map_of_mem he)
  exact ⟨hplace.symm, hbeside⟩

-- ---------------------------------------------------------------------------
-- One round
-- ---------------------------------------------------------------------------

theorem syncEntry_installed {i : Nat} (hP : P.Lawful)
    (hrun : syncEntry P host s p projectName installDir acc i d = .ok acc' d') :
    ∃ e, s.releaseLog.get (p, i) = some e ∧
      acc'.1 = acc.1 ++ ([e].filter (missing P host installDir projectName d)).map
        fun e => installed P projectName e installDir := by
  obtain ⟨e, he, -, hcur⟩ := syncEntry_placed hP hrun
  have hread := (current_iff.mp hcur).1
  have hmissing : missing P host installDir projectName d e = true ↔
      ¬ Current P host d (targetOf P installDir projectName e) e.outputBinaryHash := by
    rw [current_iff, missing, bne_iff_ne]
    exact ⟨fun h h' => h h'.2, fun h h' => h ⟨hread, h'⟩⟩
  simp only [syncEntry, Tool.bind_eq_ok, Tool.ofOption_eq_ok] at hrun
  obtain ⟨e', m, ⟨he', rfl⟩, b, m, hb, hrun⟩ := hrun
  obtain rfl : e = e' := Option.some.inj (he.symm.trans he')
  refine ⟨e, he, ?_⟩
  cases b with
  | true =>
    obtain ⟨rfl, rfl⟩ := Tool.pure_eq_ok.mp hrun
    obtain ⟨hthere, -⟩ := (upToDate_current hP).mp hb
    have hnot : ¬ missing P host installDir projectName d e = true :=
      fun h => hmissing.mp h hthere
    simp [hnot]
  | false =>
    simp only [Bool.false_eq_true, if_false, Tool.bind_eq_ok, Tool.pure_eq_ok] at hrun
    obtain ⟨x, m', hinst, rfl, rfl⟩ := hrun
    obtain ⟨-, -, -, -, -, -, rfl⟩ := (verifyAndInstall_eq_ok hP).mp hinst
    have hyes := hmissing.mpr (upToDate_missing hP hb)
    simp [hyes]

theorem foldlM_installed (hP : P.Lawful) (is : List Nat)
    (hrun : is.foldlM (syncEntry P host s p projectName installDir) acc d = .ok acc' d')
    (happart : Apart P host installDir projectName
      (is.filterMap fun i => s.releaseLog.get (p, i))) :
    acc'.1 = acc.1 ++ ((is.filterMap fun i => s.releaseLog.get (p, i)).filter
      (missing P host installDir projectName d)).map
        fun e => installed P projectName e installDir := by
  induction is generalizing acc d with
  | nil =>
    obtain ⟨rfl, -⟩ := Tool.pure_eq_ok.mp hrun
    simp
  | cons i is ih =>
    rw [List.foldlM_cons, Tool.bind_eq_ok] at hrun
    obtain ⟨acc1, m, hentry, hrest⟩ := hrun
    obtain ⟨e, he, hfirst⟩ := syncEntry_installed hP hentry
    obtain ⟨e', he', hplaced, -⟩ := syncEntry_placed hP hentry
    obtain rfl : e = e' := Option.some.inj (he.symm.trans he')
    rw [List.filterMap_cons, he] at happart ⊢
    have happart : Apart P host installDir projectName
        ([e] ++ is.filterMap fun i => s.releaseLog.get (p, i)) := happart
    have hsame : (is.filterMap fun i => s.releaseLog.get (p, i)).filter
          (missing P host installDir projectName m) =
        (is.filterMap fun i => s.releaseLog.get (p, i)).filter
          (missing P host installDir projectName d) :=
      List.filter_congr fun x hx => happart.missing_eq hplaced hx
    rw [ih hrest happart.append.2, hfirst, hsame, List.append_assoc, ← List.map_append,
      ← List.filter_append]
    rfl

theorem missing_of_current
    (h : Current P host d (targetOf P installDir projectName e) e.outputBinaryHash) :
    missing P host installDir projectName d e = false := by
  rw [missing, bne_eq_false_iff_eq]
  exact (current_iff.mp h).2

/-- What a synchronisation that returned installed, and what is there after it. -/
theorem syncProject_round (hP : P.Lawful) {r : Synced} {project : ProjectInfo}
    (hproject : s.projects.get p = some project)
    (hrun : syncProject P host s p installDir d = .ok r d')
    (happart : Apart P host installDir (P.u8aToString project.name.val) (releases s p)) :
    r.installed = ((releases s p).filter
        (missing P host installDir (P.u8aToString project.name.val) d)).map
          (fun e => installed P (P.u8aToString project.name.val) e installDir) ∧
      contents P d' = Placement.applyAll ((releases s p).map
        (placement P host installDir (P.u8aToString project.name.val))) (contents P d) ∧
      ∀ e ∈ releases s p, Current P host d'
        (targetOf P installDir (P.u8aToString project.name.val) e) e.outputBinaryHash := by
  obtain ⟨project', acc, hproject', hfold, rfl⟩ := syncProject_eq_ok.mp hrun
  obtain rfl : project = project' := Option.some.inj (hproject.symm.trans hproject')
  obtain ⟨hplaced, hlogged⟩ := foldlM_placed hP _ hfold
  refine ⟨foldlM_installed hP _ hfold happart, hplaced, fun e he => ?_⟩
  have hrestored := Placement.restored_of_apart (contents P d)
    (happart.imp fun h => ⟨h.1, h.2.1⟩)
  have hplace := Placement.inPlace_iff.mpr hrestored _
    (List.mem_map_of_mem (f := placement P host installDir (P.u8aToString project.name.val)) he)
  obtain ⟨i, hi, hget⟩ := mem_releases.mp he
  obtain ⟨e', hget', hread⟩ := hlogged i (List.mem_range.mpr hi)
  obtain rfl : e = e' := Option.some.inj (hget.symm.trans hget')
  refine current_iff.mpr ⟨hread, ?_⟩
  rw [hplaced]
  exact hplace

-- ---------------------------------------------------------------------------
-- The loop
-- ---------------------------------------------------------------------------

theorem Extends.releases (h : Extends p s s') : ∃ more, releases s' p = releases s p ++ more := by
  obtain ⟨k, hk⟩ := Nat.exists_eq_add_of_le h.count
  refine ⟨((List.range k).map (s.releaseCountOf p + ·)).filterMap
    fun i => s'.releaseLog.get (p, i), ?_⟩
  unfold Verigov.releases
  rw [hk, List.range_add, List.filterMap_append]
  congr 1
  exact List.filterMap_congr fun i hi => h.log i (List.mem_range.mp hi)

theorem syncProjectAmid_eq_ok {r : Synced} (hs : Reachable v.project) (hv : v.InOrder)
    (hmax : ∀ i, BelowMax (v.builder i))
    (hrun : syncProjectAmid P host v p installDir d = .ok r d') :
    ∃ project, v.count.projects.get p = some project ∧
      syncProject P host v.count p installDir d = .ok r d' := by
  rw [syncProject_snapshot P host hs hv hmax] at hrun
  split at hrun
  · obtain ⟨project, -, hproject, -⟩ := syncProject_eq_ok.mp hrun
    exact ⟨project, hproject, hrun⟩
  · rename_i hnone
    obtain ⟨project, -, hproject, -⟩ := syncProject_eq_ok.mp hrun
    simp [hproject] at hnone

theorem watch_cons {rounds : List (Views T)} {rs : List Synced} :
    watch P host p installDir (v :: rounds) d = .ok rs d' ↔
      ∃ r m rs', syncProjectAmid P host v p installDir d = .ok r m ∧
        watch P host p installDir rounds m = .ok rs' d' ∧ rs = r :: rs' := by
  simp only [watch, List.mapM_cons, Tool.bind_eq_ok, Tool.pure_eq_ok]
  constructor
  · rintro ⟨r, m, hr, rs', m', hrs, rfl, rfl⟩
    exact ⟨r, m, rs', hr, hrs, rfl⟩
  · rintro ⟨r, m, rs', hr, hrs, rfl⟩
    exact ⟨r, m, hr, rs', d', hrs, rfl, rfl⟩

structure RoundsInOrder (rounds : List (Views T)) : Prop where
  reachable : ∀ v ∈ rounds, Reachable v.project
  inOrder : ∀ v ∈ rounds, v.InOrder
  chain : rounds.IsChain fun v v' => ∀ i, Leads (v.builder i) v'.project

theorem RoundsInOrder.tail {rounds : List (Views T)} (h : RoundsInOrder (v :: rounds)) :
    RoundsInOrder rounds where
  reachable := (List.forall_mem_cons.mp h.reachable).2
  inOrder := (List.forall_mem_cons.mp h.inOrder).2
  chain := h.chain.tail

theorem Views.InOrder.counted (h : v.InOrder) (hmax : ∀ i, BelowMax (v.builder i)) :
    BelowMax v.count := (hmax 0).before (h.entries.trans (h.builder 0))

theorem RoundsInOrder.leads {rounds : List (Views T)} {last : Views T}
    (h : RoundsInOrder (v :: rounds)) (hlast : (v :: rounds).getLast? = some last) :
    Leads v.count last.count := by
  induction rounds generalizing v with
  | nil =>
    obtain rfl : v = last := by simpa using hlast
    exact .refl _
  | cons w rounds ih =>
    have hv := h.inOrder v List.mem_cons_self
    have hw := h.inOrder w (List.mem_cons_of_mem _ List.mem_cons_self)
    have hnext := (List.isChain_cons_cons.mp h.chain).1 0
    rw [List.getLast?_cons_cons] at hlast
    exact ((((hv.entries.trans (hv.builder 0)).trans hnext).trans hw.count).trans (ih h.tail hlast))

/-- Over all the rounds of a loop that runs on while no counter is exhausted, every
entry that was missing at the start is installed exactly once, in the order of the
log, and no other; and all are there at the end. -/
theorem watch_installs_once (hP : P.Lawful) {rounds : List (Views T)} {last : Views T}
    {rs : List Synced} {project : ProjectInfo} (h : RoundsInOrder rounds)
    (hmax : ∀ v ∈ rounds, ∀ i, BelowMax (v.builder i)) (hlast : rounds.getLast? = some last)
    (hproject : last.count.projects.get p = some project)
    (hrun : watch P host p installDir rounds d = .ok rs d')
    (happart : Apart P host installDir (P.u8aToString project.name.val) (releases last.count p)) :
    rs.flatMap (·.installed) = ((releases last.count p).filter
        (missing P host installDir (P.u8aToString project.name.val) d)).map
          (fun e => installed P (P.u8aToString project.name.val) e installDir) ∧
      ∀ e ∈ releases last.count p, Current P host d'
        (targetOf P installDir (P.u8aToString project.name.val) e) e.outputBinaryHash := by
  induction rounds generalizing d rs with
  | nil => cases hlast
  | cons v rounds ih =>
    obtain ⟨r, m, rs', hround, hrest, rfl⟩ := watch_cons.mp hrun
    have hs := h.reachable v List.mem_cons_self
    have hv := h.inOrder v List.mem_cons_self
    have hbelow := hmax v List.mem_cons_self
    obtain ⟨project', hproject', hround⟩ := syncProjectAmid_eq_ok hs hv hbelow hround
    have hlater := h.leads hlast
    have hextends : Extends p v.count last.count := by
      refine hlater.extends (hv.count.reachable hs) ?_ (by rw [hproject']; rfl)
      have hmem := List.mem_of_getLast? hlast
      exact (h.inOrder last hmem).counted (hmax last hmem)
    obtain rfl : project = project' := by
      rw [hextends.project, hproject'] at hproject
      exact (Option.some.inj hproject).symm
    obtain ⟨more, hmore⟩ := hextends.releases
    rw [hmore] at happart
    obtain ⟨hinstalled, hplaced, hcur⟩ := syncProject_round hP hproject' hround happart.append.1
    cases rounds with
    | nil =>
      obtain rfl : v = last := by simpa using hlast
      obtain ⟨rfl, rfl⟩ := Tool.pure_eq_ok.mp hrest
      exact ⟨by simpa using hinstalled, hcur⟩
    | cons w rounds =>
      rw [List.getLast?_cons_cons] at hlast
      rw [← hmore] at happart
      obtain ⟨hothers, hall⟩ := ih h.tail (List.forall_mem_cons.mp hmax).2 hlast hrest
      refine ⟨?_, hall⟩
      -- The old entries are all there, and where the new ones belong nothing has changed.
      have hold : (releases v.count p).filter
          (missing P host installDir (P.u8aToString project.name.val) m) = [] := by
        rw [List.filter_eq_nil_iff]
        intro e he
        rw [missing_of_current (hcur e he)]
        exact Bool.false_ne_true
      have hnew : more.filter (missing P host installDir (P.u8aToString project.name.val) m) =
          more.filter (missing P host installDir (P.u8aToString project.name.val) d) := by
        rw [hmore] at happart
        exact List.filter_congr fun e he => happart.missing_eq hplaced he
      rw [List.flatMap_cons, hothers, hinstalled, hmore, List.filter_append, List.filter_append,
        hold, hnew, List.nil_append, List.map_append]

-- ---------------------------------------------------------------------------
-- What the loop writes
-- ---------------------------------------------------------------------------

/-- An artifact of the entry, by its hash, where the client puts it. -/
def ArtifactOf (P : Platform AccountId) (host : Host) (installDir projectName : Text)
    (e : ReleaseEntry) (l : Location) (bytes : Bytes) : Prop :=
  l = resolve host.cwd (targetOf P installDir projectName e) ∧
      P.sha256 bytes = e.outputBinaryHash ∨
    l = resolve host.cwd (attestationTarget (targetOf P installDir projectName e)) ∧
      P.sha256 bytes = e.attestationCid

def ArtifactSeen (P : Platform T.AccountId) (host : Host) (p : Nat) (installDir : Text)
    (rounds : List (Views T)) (l : Location) (bytes : Bytes) : Prop :=
  ∃ v ∈ rounds, ∃ project i e, v.project.projects.get p = some project ∧
    i < v.count.releaseCountOf p ∧ (v.entry i).releaseLog.get (p, i) = some e ∧
    ArtifactOf P host installDir (P.u8aToString project.name.val) e l bytes

theorem verifyAndInstall_writes (hP : P.Lawful) (s : State T) (p : Nat) (projectName : Text)
    (e : ReleaseEntry) (installDir : Text) :
    Tool.Writes (ArtifactOf P host installDir projectName e)
      (verifyAndInstall P host s p projectName e installDir) := by
  refine (reads_verify P host s p e).writes.bind fun d x m hv => ?_
  obtain ⟨attBytes, binary⟩ := x
  obtain ⟨⟨doc, A, hv⟩, -⟩ := (verify_eq_ok hP).mp hv
  refine Tool.Writes.bind ?_ fun _ _ _ _ => (Tool.reads_pure _).writes
  refine (Tool.writes_mkdirSync _ _).bind fun _ _ _ _ => ?_
  refine (Tool.writes_writeFileSync (.inl ⟨rfl, hv.binaryHash⟩)).bind fun _ _ _ _ => ?_
  exact Tool.writes_writeFileSync (.inr ⟨rfl, hv.attHash⟩)

theorem reads_upToDate (P : Platform T.AccountId) (host : Host) (target hash : Text) :
    Tool.Reads (upToDate P host target hash) := by
  refine .bind (Tool.reads_existsSync _ _) fun b => ?_
  cases b with
  | true => exact .bind (Tool.reads_readFileSync _ _) fun _ => Tool.reads_pure _
  | false => exact Tool.reads_pure _

/-- Whether the loop runs on or throws, and whatever else is on the disk: each file
it leaves was there before, or is an artifact of an entry that it saw in the log. -/
theorem watch_writes (hP : P.Lawful) (host : Host) (p : Nat) (installDir : Text)
    (rounds : List (Views T)) :
    Tool.Writes (ArtifactSeen P host p installDir rounds) (watch P host p installDir rounds) := by
  refine Tool.writes_mapM fun v hv => ?_
  unfold syncProjectAmid
  cases hproject : v.project.projects.get p with
  | none => exact (Tool.reads_throw _).writes.bind fun _ _ _ h => absurd h (by simp)
  | some project =>
    dsimp only
    rw [pure_bind]
    refine Tool.Writes.bind (Tool.writes_foldlM (fun i hi acc => ?_) _) fun _ _ _ _ =>
      (Tool.reads_pure _).writes
    refine (Tool.reads_ofOption _).writes.bind fun _ e _ he => ?_
    refine (reads_upToDate P host _ _).writes.bind fun _ b _ _ => ?_
    cases b with
    | true => exact (Tool.reads_pure _).writes
    | false =>
      refine Tool.Writes.bind ?_ fun _ _ _ _ => (Tool.reads_pure _).writes
      intro d l bytes hl
      refine (verifyAndInstall_writes hP (v.builder i) p _ e installDir d l bytes hl).imp_right
        fun hart => ?_
      exact ⟨v, hv, project, i, e, hproject, List.mem_range.mp hi, (Tool.ofOption_eq_ok.mp he).1,
        hart⟩

-- ---------------------------------------------------------------------------
-- A run
-- ---------------------------------------------------------------------------

namespace Mock

theorem during_chain {s s' t : State Chain} (hs : Reachable s) (h : Leads s s')
    (h' : Leads s' t) : RoundsInOrder [during s s', during s' t] where
  reachable := by
    simp only [List.forall_mem_cons, List.not_mem_nil, false_implies, implies_true, and_true]
    exact ⟨hs, h.reachable hs⟩
  inOrder := by
    simp only [List.forall_mem_cons, List.not_mem_nil, false_implies, implies_true, and_true]
    exact ⟨during_inOrder h, during_inOrder h'⟩
  chain := by
    rw [List.isChain_pair]
    exact fun _ => .refl s'

def twoRounds : List (Views Chain) := [during opened early, during early distinct]

theorem twoRounds_inOrder : RoundsInOrder twoRounds :=
  during_chain ⟨_, reaches_blessed _⟩ leads_early leads_distinct

theorem twoRounds_belowMax : ∀ v ∈ twoRounds, ∀ i, BelowMax (v.builder i) := by
  simp only [twoRounds, List.forall_mem_cons, List.not_mem_nil, false_implies, implies_true,
    and_true]
  exact ⟨during_belowMax (belowMax_distinct.before leads_distinct),
    during_belowMax belowMax_distinct⟩

theorem twoRounds_last : twoRounds.getLast? = some (during early distinct) := rfl

theorem twoRounds_run :
    (Tool.returned (watch mirror repoHost 0 Mock.installDir twoRounds depot)).isSome ∧
      (Tool.left (watch mirror repoHost 0 Mock.installDir twoRounds depot)).node
        ["repo".toList, "install".toList, "a-4".toList] = some (.file [0x78]) ∧
      depot.node ["repo".toList, "install".toList, "a-4".toList] ≠ some (.file [0x78]) := by
  decide +kernel

theorem distinct_facts : (distinct.projects.get 0).map (·.name.val) = some [0x61] ∧
    (releases distinct 0).map (·.version.val) = [[0x34], [0x35]] := by
  decide +kernel

theorem distinct_apart :
    Apart mirror repoHost Mock.installDir "a".toList (releases distinct 0) := by
  obtain ⟨e, es, hes, he, htail⟩ := List.map_eq_cons_iff.mp distinct_facts.2
  obtain ⟨e', es', rfl, he', hnil⟩ := List.map_eq_cons_iff.mp htail
  rw [List.map_eq_nil_iff.mp hnil] at hes
  rw [Apart, hes, List.map_cons, List.map_cons, List.map_nil, List.pairwise_pair]
  simp only [placement, targetOf, he, he']
  decide +kernel

end Mock

theorem watch_installs_once_distinct : ∃ rs d',
    watch Mock.mirror Mock.repoHost 0 Mock.installDir Mock.twoRounds Mock.depot = .ok rs d' ∧
      (rs.flatMap (·.installed)).map (·.version) = ["4".toList, "5".toList] := by
  obtain ⟨rs, hreturned⟩ := Option.isSome_iff_exists.mp Mock.twoRounds_run.1
  obtain ⟨d', hrun⟩ := Tool.exists_of_returned hreturned
  obtain ⟨project, hproject, hname⟩ := Option.map_eq_some_iff.mp Mock.distinct_facts.1
  have ha : Mock.mirror.u8aToString project.name.val = "a".toList := by
    rw [hname]
    decide
  have honce := watch_installs_once (Mock.platform_lawful _) Mock.twoRounds_inOrder
    Mock.twoRounds_belowMax Mock.twoRounds_last hproject hrun
  rw [ha] at honce
  dsimp only [Mock.during] at honce
  refine ⟨rs, d', hrun, ?_⟩
  rw [(honce Mock.distinct_apart).1]
  decide +kernel

theorem watch_writes_twoRounds :
    Tool.Writes (ArtifactSeen Mock.mirror Mock.repoHost 0 Mock.installDir Mock.twoRounds)
      (watch Mock.mirror Mock.repoHost 0 Mock.installDir Mock.twoRounds) :=
  watch_writes (Mock.platform_lawful _) _ _ _ _

end Verigov
