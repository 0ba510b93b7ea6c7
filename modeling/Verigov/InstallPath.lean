import Verigov.Runtime

/-!
# Where installations go

The name of an installed file is made of the project's name and the version,
and the chain admits any bytes in both. Which of them keep the installation in
its directory is a question about the text alone and the names above the
directory (`StaysIn`).
-/

namespace Verigov

open Path

variable {AccountId : Type} {l : Location} {t : Text}

theorem releaseName_ne_nil (projectName version : Text) : releaseName projectName version ≠ [] := by
  simp [releaseName]

theorem staysIn_of_simple (h : Simple t) (l : Location) : StaysIn l t := by
  refine ⟨h.hasTrailingSep, 0, t, h, ?_⟩
  rw [net, segments_simple h.no_sep, normFrom_simple _ _ (by simpa using h)]
  simp

theorem installPaths_inside_iff (P : Platform AccountId) (host : Host)
    (name : BoundedVec UInt8 nameLimit) (version : BoundedVec UInt8 versionLimit)
    (installDir : Text) (hdir : installDir ≠ []) :
    (∀ path ∈ installPaths installDir (P.u8aToString name.val) (P.u8aToString version.val),
      DirectChild host.cwd installDir path) ↔
    StaysIn (resolve host.cwd installDir)
      (releaseName (P.u8aToString name.val) (P.u8aToString version.val)) := by
  rw [installPaths, List.forall_mem_cons, List.forall_mem_singleton]
  exact directChild_join_iff host.cwd_simple hdir (releaseName_ne_nil _ _) suffix_facts.1
    suffix_facts.2

namespace Mock

def climbing : BoundedVec UInt8 versionLimit :=
  ⟨[0x2f, 0x2e, 0x2e, 0x2f, 0x2e, 0x2e, 0x2f, 0x78], by decide⟩

def climber : BuildAttestation Nat := built 8 0x51 [0x76]

def climbed : State Chain :=
  blessed [bless climbing climber (Sha256.sha256 (stringify (document climber))) .sr25519]

end Mock

theorem installPaths_inside_plain :
    DirectChild Mock.repoHost.cwd Mock.installDir
        (installTarget Mock.installDir "a".toList "1".toList) ∧
      DirectChild Mock.repoHost.cwd Mock.installDir
        (attestationTarget (installTarget Mock.installDir "a".toList "1".toList)) := by
  have h := (installPaths_inside_iff (Mock.platform []) Mock.repoHost ⟨[0x61], by decide⟩
    ⟨[0x31], by decide⟩ Mock.installDir (by decide)).mpr (staysIn_of_simple (by decide) _)
  rw [installPaths, List.forall_mem_cons, List.forall_mem_singleton] at h
  exact h

/-- A release of this version is installed beside the directory. -/
theorem installs_outside : Reachable Mock.climbed ∧
    ∃ project entry, Mock.climbed.projects.get 0 = some project ∧
      Mock.climbed.releaseLog.get (0, 0) = some entry ∧
      (Tool.left (verifyAndInstall (Mock.platform [Mock.document Mock.climber]) Mock.repoHost
        Mock.climbed 0 ((Mock.platform []).u8aToString project.name.val) entry Mock.installDir
        (Mock.stocked [Mock.stringify (Mock.document Mock.climber), [0x76]]))).node
          ["repo".toList, "x".toList] = some (.file [0x76]) ∧
      ¬ ∀ path ∈ installPaths Mock.installDir ((Mock.platform []).u8aToString project.name.val)
        ((Mock.platform []).u8aToString entry.version.val),
        DirectChild Mock.repoHost.cwd Mock.installDir path := by
  have hrun : ((Mock.climbed.projects.get 0).bind fun project =>
      (Mock.climbed.releaseLog.get (0, 0)).map fun entry =>
        ((Tool.left (verifyAndInstall (Mock.platform [Mock.document Mock.climber]) Mock.repoHost
          Mock.climbed 0 ((Mock.platform []).u8aToString project.name.val) entry Mock.installDir
          (Mock.stocked [Mock.stringify (Mock.document Mock.climber), [0x76]]))).node
            ["repo".toList, "x".toList],
        decide (∀ path ∈ installPaths Mock.installDir
          ((Mock.platform []).u8aToString project.name.val)
          ((Mock.platform []).u8aToString entry.version.val),
          DirectChild Mock.repoHost.cwd Mock.installDir path))) =
      some (some (.file [0x76]), false) := by
    decide +kernel
  obtain ⟨project, hproject, hentry⟩ := Option.bind_eq_some_iff.mp hrun
  obtain ⟨entry, hentry, hfacts⟩ := Option.map_eq_some_iff.mp hentry
  simp only [Prod.mk.injEq, decide_eq_false_iff_not] at hfacts
  exact ⟨⟨_, Mock.reaches_blessed _⟩, project, entry, hproject, hentry, hfacts⟩

end Verigov
