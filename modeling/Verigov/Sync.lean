import Verigov.Lib.Placement
import Verigov.Runtime

/-!
# Synchronisation

What a run of `syncProject` that returns does to the files on the disk is the
work of placements in the order of the log: each entry puts its binary at its
target and its attestation beside it. The chain does not look at versions, so
the files of two entries may have one place.
-/

namespace Verigov

open Path Hex

def Current (P : Platform AccountId) (host : Host) (d : Disk) (target : Text) (h : Hash32) : Prop :=
  ∃ bytes, d.readFileSync host.cwd target = some bytes ∧ P.sha256 bytes = h

def contents (P : Platform AccountId) (d : Disk) (l : Location) : Option Hash32 :=
  match d.node l with
  | some (.file bytes) => some (P.sha256 bytes)
  | _ => none

/-- The binary of an entry at its target, with the attestation beside it. -/
def placement (P : Platform AccountId) (host : Host) (installDir projectName : Text)
    (e : ReleaseEntry) : Placement Location Hash32 where
  place := resolve host.cwd (targetOf P installDir projectName e)
  value := e.outputBinaryHash
  beside := resolve host.cwd (attestationTarget (targetOf P installDir projectName e))
  note := e.attestationCid
  beside_ne := resolve_attestationTarget_ne host.cwd (installTarget_ne_nil _ _ _)

def releases (s : State T) (p : Nat) : List ReleaseEntry :=
  (List.range (s.releaseCountOf p)).filterMap fun i => s.releaseLog.get (p, i)

variable {T : Config} {P : Platform T.AccountId} {host : Host} {s : State T} {p i : Nat}
  {e : ReleaseEntry} {d d' : Disk} {installDir projectName target : Text} {h : Hash32}
  {acc acc' : List Installed × List Text}

-- ---------------------------------------------------------------------------
-- Files and their hashes
-- ---------------------------------------------------------------------------

theorem contents_eq_some : contents P d l = some h ↔
    ∃ bytes, d.node l = some (.file bytes) ∧ P.sha256 bytes = h := by
  unfold contents
  split <;> simp_all

theorem contents_congr (hsame : ∀ bytes, d'.node l = some (.file bytes) ↔
    d.node l = some (.file bytes)) : contents P d' l = contents P d l := by
  ext h
  rw [contents_eq_some, contents_eq_some]
  simp only [hsame]

theorem current_iff : Current P host d target h ↔
    (Disk.usablePath target ∧ hasTrailingSep target = false) ∧
      contents P d (resolve host.cwd target) = some h := by
  unfold Current
  simp only [Disk.readFileSync_eq_some, contents_eq_some]
  constructor
  · rintro ⟨bytes, ⟨hv, ht, hn⟩, hh⟩
    exact ⟨⟨hv, ht⟩, bytes, hn, hh⟩
  · rintro ⟨⟨hv, ht⟩, bytes, hn, hh⟩
    exact ⟨bytes, ⟨hv, ht, hn⟩, hh⟩

theorem upToDate_eq_ok (hP : P.Lawful) {b : Bool} :
    upToDate P host target (P.u8aToHex h.toList) d = .ok b d' ↔
      d = d' ∧ ((∃ bytes, d.readFileSync host.cwd target = some bytes ∧
          b = decide (P.sha256 bytes = h)) ∨
        d.existsSync host.cwd target = false ∧ b = false) := by
  simp only [upToDate, Tool.bind_eq_ok, Tool.existsSync_eq_ok]
  constructor
  · rintro ⟨x, m, ⟨hx, rfl⟩, hrun⟩
    split at hrun
    · simp only [Tool.bind_eq_ok, Tool.readFileSync_eq_ok, Tool.pure_eq_ok] at hrun
      obtain ⟨bytes, m, ⟨hread, rfl⟩, rfl, rfl⟩ := hrun
      refine ⟨rfl, .inl ⟨bytes, hread, ?_⟩⟩
      rw [Bool.eq_iff_iff, beq_iff_eq, decide_eq_true_iff, hP.sha256Hex_eq_iff]
    · rename_i hfalse
      obtain ⟨rfl, rfl⟩ := Tool.pure_eq_ok.mp hrun
      exact ⟨rfl, .inr ⟨by simpa [hx] using hfalse, rfl⟩⟩
  · rintro ⟨rfl, ⟨bytes, hread, rfl⟩ | ⟨hx, rfl⟩⟩
    · refine ⟨true, d, ⟨Disk.existsSync_of_read hread, rfl⟩, ?_⟩
      simp only [if_true, Tool.bind_eq_ok, Tool.readFileSync_eq_ok, Tool.pure_eq_ok]
      refine ⟨bytes, d, ⟨hread, rfl⟩, ?_, rfl⟩
      rw [Bool.eq_iff_iff, beq_iff_eq, decide_eq_true_iff, hP.sha256Hex_eq_iff]
    · exact ⟨false, d, ⟨hx, rfl⟩, by simp⟩

-- ---------------------------------------------------------------------------
-- One entry
-- ---------------------------------------------------------------------------

theorem upToDate_current (hP : P.Lawful) :
    upToDate P host target (P.u8aToHex h.toList) d = .ok true d' ↔
      Current P host d target h ∧ d = d' := by
  rw [upToDate_eq_ok hP]
  constructor
  · rintro ⟨rfl, ⟨bytes, hread, hb⟩ | ⟨-, hb⟩⟩
    · exact ⟨⟨bytes, hread, of_decide_eq_true hb.symm⟩, rfl⟩
    · cases hb
  · rintro ⟨⟨bytes, hread, hhash⟩, rfl⟩
    exact ⟨rfl, .inl ⟨bytes, hread, (decide_eq_true hhash).symm⟩⟩

theorem upToDate_missing (hP : P.Lawful)
    (hrun : upToDate P host target (P.u8aToHex h.toList) d = .ok false d') :
    ¬ Current P host d target h := by
  rintro ⟨bytes, hread, rfl⟩
  obtain ⟨-, ⟨bytes', hread', hb⟩ | ⟨hx, -⟩⟩ := (upToDate_eq_ok hP).mp hrun
  · obtain rfl : bytes = bytes' := Option.some.inj (hread.symm.trans hread')
    simp at hb
  · rw [Disk.existsSync_of_read hread] at hx
    cases hx

theorem verifyAndInstall_placed (hP : P.Lawful) {x : Installed}
    (hrun : verifyAndInstall P host s p projectName e installDir d = .ok x d')
    (hmissing : ¬ Current P host d (targetOf P installDir projectName e) e.outputBinaryHash) :
    contents P d' = (placement P host installDir projectName e).apply (contents P d) ∧
      Current P host d' (targetOf P installDir projectName e) e.outputBinaryHash := by
  obtain ⟨attBytes, binary, doc, A, hv, hinst, -⟩ := (verifyAndInstall_eq_ok hP).mp hrun
  obtain ⟨m1, m2, -, hbin, -⟩ := install_eq_ok.mp hinst
  obtain ⟨hvalid, ht, -⟩ := Disk.writable_of_writeFileSync hbin
  have hplaces := install_places (installTarget_ne_nil _ _ _) hinst
  have hmissing : contents P d (placement P host installDir projectName e).place ≠
      some (placement P host installDir projectName e).value :=
    fun h => hmissing (current_iff.mpr ⟨⟨hvalid, ht⟩, h⟩)
  have hplaced : contents P d' = (placement P host installDir projectName e).apply
      (contents P d) := by
    funext l
    unfold Placement.apply
    rw [if_neg hmissing]
    split
    · rename_i hl
      subst hl
      exact contents_eq_some.mpr ⟨attBytes, hplaces.attFile, hv.attHash⟩
    · rename_i hbeside
      split
      · rename_i hl
        subst hl
        exact contents_eq_some.mpr ⟨binary, hplaces.binaryFile, hv.binaryHash⟩
      · rename_i hplace
        exact contents_congr fun bytes => hplaces.others l bytes hplace hbeside
  refine ⟨hplaced, current_iff.mpr ⟨⟨hvalid, ht⟩, ?_⟩⟩
  rw [hplaced]
  exact Placement.apply_place (placement P host installDir projectName e) _

theorem syncEntry_placed (hP : P.Lawful)
    (hrun : syncEntry P host s p projectName installDir acc i d = .ok acc' d') :
    ∃ e, s.releaseLog.get (p, i) = some e ∧
      contents P d' = (placement P host installDir projectName e).apply (contents P d) ∧
      Current P host d' (targetOf P installDir projectName e) e.outputBinaryHash := by
  simp only [syncEntry, Tool.bind_eq_ok, Tool.ofOption_eq_ok] at hrun
  obtain ⟨e, m, ⟨he, rfl⟩, b, m, hb, hrun⟩ := hrun
  obtain ⟨rfl, -⟩ := (upToDate_eq_ok hP).mp hb
  refine ⟨e, he, ?_⟩
  cases b with
  | true =>
    obtain ⟨-, rfl⟩ := Tool.pure_eq_ok.mp hrun
    obtain ⟨hcur, -⟩ := (upToDate_current hP).mp hb
    have hplace := (current_iff.mp hcur).2
    exact ⟨(Placement.apply_of_inPlace (e := placement P host installDir projectName e)
      hplace).symm, hcur⟩
  | false =>
    simp only [Bool.false_eq_true, if_false, Tool.bind_eq_ok, Tool.pure_eq_ok] at hrun
    obtain ⟨x, m, hinst, -, rfl⟩ := hrun
    exact verifyAndInstall_placed hP hinst (upToDate_missing hP hb)

theorem syncEntry_skips (hP : P.Lawful) (he : s.releaseLog.get (p, i) = some e)
    (hcur : Current P host d (targetOf P installDir projectName e) e.outputBinaryHash) :
    syncEntry P host s p projectName installDir acc i d =
      .ok (acc.1, acc.2 ++ [P.u8aToString e.version.val]) d := by
  simp only [syncEntry, Tool.bind_eq_ok, Tool.ofOption_eq_ok]
  exact ⟨e, d, ⟨he, rfl⟩, true, d, (upToDate_current hP).mpr ⟨hcur, rfl⟩, rfl⟩

-- ---------------------------------------------------------------------------
-- The whole log
-- ---------------------------------------------------------------------------

def Readable (target : Text) : Prop := Disk.usablePath target ∧ hasTrailingSep target = false

theorem foldlM_placed (hP : P.Lawful) (is : List Nat)
    (hrun : is.foldlM (syncEntry P host s p projectName installDir) acc d = .ok acc' d') :
    contents P d' = Placement.applyAll ((is.filterMap fun i => s.releaseLog.get (p, i)).map
        (placement P host installDir projectName)) (contents P d) ∧
      ∀ i ∈ is, ∃ e, s.releaseLog.get (p, i) = some e ∧
        Readable (targetOf P installDir projectName e) := by
  induction is generalizing acc d with
  | nil =>
    obtain ⟨-, rfl⟩ := Tool.pure_eq_ok.mp hrun
    simp
  | cons i is ih =>
    rw [List.foldlM_cons, Tool.bind_eq_ok] at hrun
    obtain ⟨acc1, m, hentry, hrest⟩ := hrun
    obtain ⟨e, he, hplaced, hcur⟩ := syncEntry_placed hP hentry
    obtain ⟨hall, hlogged⟩ := ih hrest
    constructor
    · rw [hall, hplaced, List.filterMap_cons, he]
      rfl
    · rw [List.forall_mem_cons]
      exact ⟨⟨e, he, (current_iff.mp hcur).1⟩, hlogged⟩

theorem foldlM_skips (hP : P.Lawful) (is : List Nat) (acc : List Installed × List Text)
    (h : ∀ i ∈ is, ∃ e, s.releaseLog.get (p, i) = some e ∧
      Current P host d (targetOf P installDir projectName e) e.outputBinaryHash) :
    ∃ skipped, is.foldlM (syncEntry P host s p projectName installDir) acc d =
      .ok (acc.1, skipped) d := by
  induction is generalizing acc with
  | nil => exact ⟨acc.2, rfl⟩
  | cons i is ih =>
    obtain ⟨⟨e, he, hcur⟩, h⟩ := List.forall_mem_cons.mp h
    obtain ⟨skipped, hrest⟩ := ih (acc.1, acc.2 ++ [P.u8aToString e.version.val]) h
    refine ⟨skipped, ?_⟩
    rw [List.foldlM_cons, Tool.bind_eq_ok]
    exact ⟨_, d, syncEntry_skips hP he hcur, hrest⟩

theorem syncProject_eq_ok {r : Synced} : syncProject P host s p installDir d = .ok r d' ↔
    ∃ project acc, s.projects.get p = some project ∧
      (List.range (s.releaseCountOf p)).foldlM
        (syncEntry P host s p (P.u8aToString project.name.val) installDir) ([], []) d =
          .ok acc d' ∧
      r = { projectName := P.u8aToString project.name.val, count := s.releaseCountOf p,
            installed := acc.1, skipped := acc.2 } := by
  unfold syncProject
  cases s.projects.get p with
  | none => simp [Tool.bind_eq_ok]
  | some project =>
    simp only [Tool.bind_eq_ok, Tool.pure_eq_ok, Option.some.injEq]
    constructor
    · rintro ⟨x, m, ⟨rfl, rfl⟩, acc, m, hfold, rfl, rfl⟩
      exact ⟨_, acc, rfl, hfold, rfl⟩
    · rintro ⟨x, acc, rfl, hfold, rfl⟩
      exact ⟨_, d, ⟨rfl, rfl⟩, acc, d', hfold, rfl, rfl⟩

theorem mem_releases : e ∈ releases s p ↔
    ∃ i < s.releaseCountOf p, s.releaseLog.get (p, i) = some e := by
  simp [releases, List.mem_filterMap]

/-- A synchronisation that returned has the binary of every entry at its target,
and doing it again installs nothing, just if every file that other entries
overwrite is written again. -/
theorem syncProject_installs_iff (hP : P.Lawful) (s : State T) (p : Nat)
    (hproject : s.projects.get p = some project) (host : Host) (installDir : Text) (d : Disk)
    {r : Synced} (hrun : syncProject P host s p installDir d = .ok r d') :
    ((∀ i < s.releaseCountOf p, ∃ e, s.releaseLog.get (p, i) = some e ∧
        Current P host d' (targetOf P installDir (P.u8aToString project.name.val) e)
          e.outputBinaryHash) ∧
      ∃ r', syncProject P host s p installDir d' = .ok r' d' ∧ r'.installed = []) ↔
      Placement.Restored (contents P d) ((releases s p).map
        (placement P host installDir (P.u8aToString project.name.val))) := by
  obtain ⟨project', acc, hproject', hfold, -⟩ := syncProject_eq_ok.mp hrun
  obtain rfl : project = project' := Option.some.inj (hproject.symm.trans hproject')
  obtain ⟨hplaced, hlogged⟩ := foldlM_placed hP _ hfold
  rw [← releases] at hplaced
  rw [← Placement.inPlace_iff, ← hplaced, List.forall_mem_map]
  constructor
  · rintro ⟨hcur, -⟩ e he
    obtain ⟨i, hi, hget⟩ := mem_releases.mp he
    obtain ⟨e', hget', hcur⟩ := hcur i hi
    obtain rfl : e = e' := Option.some.inj (hget.symm.trans hget')
    exact (current_iff.mp hcur).2
  · intro hall
    have hcur : ∀ i < s.releaseCountOf p, ∃ e, s.releaseLog.get (p, i) = some e ∧
        Current P host d' (targetOf P installDir (P.u8aToString project.name.val) e)
          e.outputBinaryHash := by
      intro i hi
      obtain ⟨e, he, hread⟩ := hlogged i (List.mem_range.mpr hi)
      exact ⟨e, he, current_iff.mpr ⟨hread, hall e (mem_releases.mpr ⟨i, hi, he⟩)⟩⟩
    obtain ⟨skipped, hskip⟩ := foldlM_skips hP (List.range (s.releaseCountOf p)) ([], [])
      fun i hi => hcur i (List.mem_range.mp hi)
    exact ⟨hcur, _, syncProject_eq_ok.mpr ⟨project, _, hproject, hskip, rfl⟩, rfl⟩

-- ---------------------------------------------------------------------------
-- Runs
-- ---------------------------------------------------------------------------

namespace Mock

def first : BuildAttestation Nat := built 8 0x54 [0x78]

def second : BuildAttestation Nat := built 9 0x55 [0x79]

def shipped (A : BuildAttestation Nat) : Bytes := stringify (document A)

def reissued : BoundedVec UInt8 versionLimit := ⟨[0x34], by decide⟩

def twoReleases (version : BoundedVec UInt8 versionLimit) : List (List (Action Chain)) :=
  [bless reissued first (Sha256.sha256 (shipped first)) .sr25519,
    bless version second (Sha256.sha256 (shipped second)) .sr25519]

def distinct : State Chain := blessed (twoReleases ⟨[0x35], by decide⟩)

def repeated : State Chain := blessed (twoReleases reissued)

def mirror : Platform Nat := platform [document first, document second]

def depot : Disk := stocked [shipped first, [0x78], shipped second, [0x79]]

end Mock

theorem syncProject_installs_distinct : ∃ r d',
    syncProject Mock.mirror Mock.repoHost Mock.distinct 0 Mock.installDir Mock.depot = .ok r d' ∧
      ∃ r', syncProject Mock.mirror Mock.repoHost Mock.distinct 0 Mock.installDir d' = .ok r' d' ∧
        r'.installed = [] := by
  have hreturned : (Tool.returned (syncProject Mock.mirror Mock.repoHost Mock.distinct 0
      Mock.installDir Mock.depot)).isSome := by
    decide +kernel
  have hfacts : ((Mock.distinct.projects.get 0).map (·.name.val),
      (releases Mock.distinct 0).map (·.version.val)) = (some [0x61], [[0x34], [0x35]]) := by
    decide +kernel
  obtain ⟨hname, hversions⟩ := Prod.mk.inj hfacts
  obtain ⟨r, hr⟩ := Option.isSome_iff_exists.mp hreturned
  obtain ⟨d', hrun⟩ := Tool.exists_of_returned hr
  obtain ⟨project, hproject, hname⟩ := Option.map_eq_some_iff.mp hname
  refine ⟨r, d', hrun, ((syncProject_installs_iff (Mock.platform_lawful _) Mock.distinct 0 hproject
    Mock.repoHost Mock.installDir Mock.depot hrun).mpr
      (Placement.restored_of_apart _ ?_)).2⟩
  obtain ⟨e, es, hes, he, htail⟩ := List.map_eq_cons_iff.mp hversions
  obtain ⟨e', es', rfl, he', hnil⟩ := List.map_eq_cons_iff.mp htail
  rw [List.map_eq_nil_iff.mp hnil] at hes
  rw [hes, hname, List.map_cons, List.map_cons, List.map_nil, List.pairwise_pair]
  simp only [placement, targetOf, he, he']
  decide +kernel

theorem syncProject_overwrites : Reachable Mock.repeated ∧ ∃ project e r d',
    Mock.repeated.projects.get 0 = some project ∧
      Mock.repeated.releaseLog.get (0, 0) = some e ∧
      syncProject Mock.mirror Mock.repoHost Mock.repeated 0 Mock.installDir Mock.depot =
        .ok r d' ∧
      ¬ Current Mock.mirror Mock.repoHost d' (targetOf Mock.mirror Mock.installDir
        (Mock.mirror.u8aToString project.name.val) e) e.outputBinaryHash := by
  have hfacts : ((Mock.repeated.projects.get 0).map (·.name.val),
      (Mock.repeated.releaseLog.get (0, 0)).map (fun e => (e.version.val, e.outputBinaryHash))) =
        (some [0x61], some ([0x34], Sha256.sha256 [0x78])) := by
    decide +kernel
  have hfile : ((Tool.returned (syncProject Mock.mirror Mock.repoHost Mock.repeated 0
        Mock.installDir Mock.depot)).isSome,
      (Tool.left (syncProject Mock.mirror Mock.repoHost Mock.repeated 0 Mock.installDir
        Mock.depot)).readFileSync Mock.repoHost.cwd
          (installTarget Mock.installDir "a".toList "4".toList)) = (true, some [0x79]) := by
    decide +kernel
  obtain ⟨hname, hentry⟩ := Prod.mk.inj hfacts
  obtain ⟨hreturned, hread⟩ := Prod.mk.inj hfile
  obtain ⟨project, hproject, hname⟩ := Option.map_eq_some_iff.mp hname
  obtain ⟨e, he, hdata⟩ := Option.map_eq_some_iff.mp hentry
  obtain ⟨hversion, hhash⟩ := Prod.mk.inj hdata
  obtain ⟨r, hr⟩ := Option.isSome_iff_exists.mp hreturned
  obtain ⟨d', hrun⟩ := Tool.exists_of_returned hr
  refine ⟨⟨_, Mock.reaches_blessed _⟩, project, e, r, d', hproject, he, hrun, ?_⟩
  rw [targetOf, hname, hversion, hhash]
  rintro ⟨bytes, hbytes, hsame⟩
  rw [hrun] at hread
  obtain rfl : bytes = [0x79] := Option.some.inj (hbytes.symm.trans hread)
  exact absurd hsame (by decide +kernel)

end Verigov
