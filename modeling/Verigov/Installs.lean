import Verigov.Attested
import Verigov.Lib.Child

/-!
# What an installation writes

A run of `verifyAndInstall` that returns has verified the entry and written two
files, and a run that throws has written no others: every other file on the
disk stays what it was.
-/

namespace Verigov

open Path

variable {T : Config} {P : Platform T.AccountId} {host : Host} {s : State T} {p : Nat}
  {entry : ReleaseEntry} {d d' : Disk} {installDir projectName target : Text}
  {attBytes binary : Bytes}

abbrev targetOf (P : Platform AccountId) (installDir projectName : Text) (entry : ReleaseEntry) :
    Text := installTarget installDir projectName (P.u8aToString entry.version.val)

def installed (P : Platform T.AccountId) (projectName : Text) (entry : ReleaseEntry)
    (installDir : Text) : Installed where
  version := P.u8aToString entry.version.val
  path := targetOf P installDir projectName entry
  hash := P.u8aToHex entry.outputBinaryHash.toList
  attestationCid := P.u8aToHex entry.attestationCid.toList

theorem install_eq_ok {u : Unit} : install host installDir target attBytes binary d = .ok u d' ↔
    ∃ m1 m2, d.mkdirSync host.cwd installDir = some m1 ∧
      m1.writeFileSync host.cwd target binary = some m2 ∧
      m2.writeFileSync host.cwd (attestationTarget target) attBytes = some d' := by
  simp only [install, Tool.bind_eq_ok, Tool.mkdirSync_eq_ok, Tool.writeFileSync_eq_ok]
  constructor
  · rintro ⟨-, m1, h1, -, m2, h2, h3⟩
    exact ⟨m1, m2, h1, h2, h3⟩
  · rintro ⟨m1, m2, h1, h2, h3⟩
    exact ⟨(), m1, h1, (), m2, h2, h3⟩

theorem verifyAndInstall_eq_ok (hP : P.Lawful) {r : Installed} :
    verifyAndInstall P host s p projectName entry installDir d = .ok r d' ↔
      ∃ attBytes binary doc A, Verified P host s p entry d attBytes doc A binary ∧
        install host installDir (targetOf P installDir projectName entry) attBytes binary d =
          .ok () d' ∧
        r = installed P projectName entry installDir := by
  simp only [verifyAndInstall, Tool.bind_eq_ok, verify_eq_ok hP, Tool.pure_eq_ok]
  constructor
  · rintro ⟨⟨attBytes, binary⟩, m, ⟨⟨doc, A, hv⟩, rfl⟩, ⟨⟩, m, hinst, rfl, rfl⟩
    exact ⟨attBytes, binary, doc, A, hv, hinst, rfl⟩
  · rintro ⟨attBytes, binary, doc, A, hv, hinst, rfl⟩
    exact ⟨(attBytes, binary), d, ⟨⟨doc, A, hv⟩, rfl⟩, (), d', hinst, rfl, rfl⟩

-- ---------------------------------------------------------------------------
-- Files
-- ---------------------------------------------------------------------------

theorem suffix_facts : '/' ∉ ".attestation.json".toList ∧
    2 < ".attestation.json".toList.length := by
  decide

theorem installTarget_ne_nil (installDir projectName version : Text) :
    installTarget installDir projectName version ≠ [] := join_ne_nil _ _

theorem resolve_attestationTarget_ne (cwd : Location) (h : target ≠ []) :
    resolve cwd (attestationTarget target) ≠ resolve cwd target :=
  resolve_append_suffix_ne cwd h suffix_facts.1 suffix_facts.2

/-- The directory can be made, and then both files written. -/
structure Installable (host : Host) (d : Disk) (installDir target : Text) : Prop where
  usable : Disk.usablePath installDir
  noFile : ∀ l bytes, l <+: resolve host.cwd installDir → d.node l ≠ some (.file bytes)
  binary : d.WritableOnce host.cwd installDir target
  attestation : d.WritableOnce host.cwd installDir (attestationTarget target)

theorem install_returns_iff :
    (∃ d', install host installDir target attBytes binary d = .ok () d') ↔
      Installable host d installDir target := by
  simp only [install_eq_ok]
  constructor
  · rintro ⟨d', m1, m2, hdir, hbin, hatt⟩
    obtain ⟨hv, hfile⟩ := Disk.mkdirSync_isSome.mp (Option.isSome_iff_exists.mpr ⟨m1, hdir⟩)
    have hwritable := Disk.writable_of_writeFileSync hatt
    rw [Disk.writable_writeFileSync hbin, Disk.writable_mkdirSync hdir] at hwritable
    exact ⟨hv, hfile, (Disk.writable_mkdirSync hdir).mp (Disk.writable_of_writeFileSync hbin),
      hwritable⟩
  · intro h
    have hdir := Disk.mkdirSync_isSome.mpr ⟨h.usable, h.noFile⟩
    obtain ⟨m1, hdir⟩ := Option.isSome_iff_exists.mp hdir
    have hbin : (m1.writeFileSync host.cwd target binary).isSome :=
      Disk.writeFileSync_isSome.mpr ((Disk.writable_mkdirSync hdir).mpr h.binary)
    obtain ⟨m2, hbin⟩ := Option.isSome_iff_exists.mp hbin
    have hwritable := (Disk.writable_mkdirSync hdir).mpr h.attestation
    rw [← Disk.writable_writeFileSync hbin, ← Disk.writeFileSync_isSome] at hwritable
    obtain ⟨d', hatt⟩ := Option.isSome_iff_exists.mp hwritable
    exact ⟨d', m1, m2, hdir, hbin, hatt⟩

structure Places (host : Host) (target : Text) (attBytes binary : Bytes) (d d' : Disk) : Prop where
  binaryFile : d'.node (resolve host.cwd target) = some (.file binary)
  attFile : d'.node (resolve host.cwd (attestationTarget target)) = some (.file attBytes)
  others : ∀ l bytes, l ≠ resolve host.cwd target →
    l ≠ resolve host.cwd (attestationTarget target) →
    (d'.node l = some (.file bytes) ↔ d.node l = some (.file bytes))

theorem install_places (htarget : target ≠ [])
    (h : install host installDir target attBytes binary d = .ok () d') :
    Places host target attBytes binary d d' := by
  obtain ⟨m1, m2, hdir, hbin, hatt⟩ := install_eq_ok.mp h
  have hnode1 := Disk.node_writeFileSync hbin
  have hnode2 := Disk.node_writeFileSync hatt
  have hne := resolve_attestationTarget_ne host.cwd htarget
  constructor
  · rw [hnode2, if_neg hne.symm, hnode1, if_pos rfl]
  · rw [hnode2, if_pos rfl]
  · intro l bytes h1 h2
    rw [hnode2, if_neg h2, hnode1, if_neg h1]
    exact (Disk.mkdirSync_made hdir).file_iff

-- ---------------------------------------------------------------------------
-- Runs that throw
-- ---------------------------------------------------------------------------

theorem reads_storeGet (H : Hashing) (host : Host) (cid : Text) :
    Tool.Reads (storeGet H host cid) :=
  .bind (Tool.reads_existsSync _ _) fun _ => .bind (Tool.reads_ensure _ _) fun _ =>
    .bind (Tool.reads_readFileSync _ _) fun _ => .bind (Tool.reads_ensure _ _) fun _ =>
      Tool.reads_pure _

theorem Json.reads_get (doc : Json) (name : Text) : Tool.Reads (doc.get name) := by
  cases doc with
  | null => exact Tool.reads_throw _
  | _ => exact Tool.reads_pure _

theorem Platform.reads_lower (j : Option Json) : Tool.Reads (P.lower j) := by
  rcases j with _ | (_ | _ | _ | _)
  case some.object => exact Tool.reads_throw _
  case some.other => exact Tool.reads_throw _
  all_goals exact Tool.reads_pure _

theorem Platform.reads_u8a (j : Option Json) : Tool.Reads (P.u8a j) := by
  rcases j with _ | (_ | _ | _ | _)
  case some.object => exact Tool.reads_throw _
  case some.other => exact Tool.reads_throw _
  all_goals exact Tool.reads_pure _

theorem Platform.reads_address (j : Option Json) : Tool.Reads (P.address j) := by
  rcases j with _ | (_ | t | _ | _)
  case some.string => exact Tool.reads_ofOption _
  all_goals exact Tool.reads_throw _

theorem Platform.reads_digest (doc : Json) (name : Text) : Tool.Reads (P.digest doc name) := by
  refine .bind (Json.reads_get _ _) fun h => .bind (Platform.reads_u8a h) fun u8 => ?_
  split
  · exact Tool.reads_pure _
  · exact Tool.reads_throw _

theorem reads_signingPayload (doc : Json) : Tool.Reads (signingPayload P doc) :=
  .bind (Platform.reads_digest _ _) fun _ => .bind (Platform.reads_digest _ _) fun _ =>
    .bind (Platform.reads_digest _ _) fun _ => .bind (Platform.reads_digest _ _) fun _ =>
      Tool.reads_pure _

theorem reads_verify (P : Platform T.AccountId) (host : Host) (s : State T) (p : Nat)
    (entry : ReleaseEntry) : Tool.Reads (verify P host s p entry) := by
  refine .bind (reads_storeGet _ _ _) fun attBytes => .bind (Tool.reads_ofOption _) fun att => ?_
  refine .bind (Json.reads_get _ _) fun binaryHash => .bind (Platform.reads_lower _) fun _ => ?_
  refine .bind (Tool.reads_ensure _ _) fun _ => .bind (Json.reads_get _ _) fun commit => ?_
  refine .bind (Platform.reads_lower _) fun _ => .bind (Tool.reads_ensure _ _) fun _ => ?_
  refine .bind (Json.reads_get _ _) fun builder => ?_
  refine .bind (Platform.reads_address _) fun account => ?_
  refine .bind (Tool.reads_ensure _ _) fun _ => .bind (reads_signingPayload _) fun payload => ?_
  refine .bind (Json.reads_get _ _) fun _ => .bind (Platform.reads_u8a _) fun signature => ?_
  refine .bind (Tool.reads_ofOption _) fun _ => .bind (Tool.reads_ensure _ _) fun _ => ?_
  exact .bind (reads_storeGet _ _ _) fun binary => .bind (Tool.reads_ensure _ _) fun _ =>
    Tool.reads_pure _

/-- Whether it returns or throws, an installation changes no file but its two. -/
theorem install_others (installDir : Text) (attBytes binary : Bytes) (d : Disk) {l : Location}
    (bytes : Bytes) (h1 : l ≠ resolve host.cwd target)
    (h2 : l ≠ resolve host.cwd (attestationTarget target)) :
    (Tool.left (install host installDir target attBytes binary d)).node l = some (.file bytes) ↔
      d.node l = some (.file bytes) := by
  unfold install
  simp only [Tool.bind_run, Tool.mkdirSync_run]
  cases hdir : d.mkdirSync host.cwd installDir with
  | none => rfl
  | some m1 =>
    rw [← (Disk.mkdirSync_made hdir).file_iff]
    simp only [Tool.writeFileSync_run]
    cases hbin : m1.writeFileSync host.cwd target binary with
    | none => rfl
    | some m2 =>
      have hnode1 := Disk.node_writeFileSync hbin l
      rw [if_neg h1] at hnode1
      dsimp only
      cases hatt : m2.writeFileSync host.cwd (attestationTarget target) attBytes with
      | none => exact iff_of_eq (congrArg (· = _) hnode1)
      | some m3 =>
        have hnode2 := Disk.node_writeFileSync hatt l
        rw [if_neg h2] at hnode2
        exact iff_of_eq (congrArg (· = _) (hnode2.trans hnode1))

def installPaths (installDir projectName version : Text) : List Text :=
  [installTarget installDir projectName version,
    attestationTarget (installTarget installDir projectName version)]

theorem verifyAndInstall_others (P : Platform T.AccountId) (host : Host) (s : State T) (p : Nat)
    (projectName : Text) (entry : ReleaseEntry) (installDir : Text) (d : Disk) {l : Location}
    {bytes : Bytes}
    (h : ∀ path ∈ installPaths installDir projectName (P.u8aToString entry.version.val),
      l ≠ resolve host.cwd path) :
    (Tool.left (verifyAndInstall P host s p projectName entry installDir d)).node l =
      some (.file bytes) ↔ d.node l = some (.file bytes) := by
  rw [installPaths, List.forall_mem_cons, List.forall_mem_singleton] at h
  unfold verifyAndInstall
  have hreads := reads_verify P host s p entry d
  rw [Tool.bind_run]
  cases hv : verify P host s p entry d with
  | error e m =>
    rw [hv] at hreads
    cases hreads
    rfl
  | ok x m =>
    rw [hv] at hreads
    cases hreads
    obtain ⟨attBytes, binary⟩ := x
    have hothers := install_others installDir attBytes binary m bytes h.1 h.2
    show (Tool.left ((install host installDir _ attBytes binary >>= fun _ => pure _) m)).node l =
      _ ↔ m.node l = _
    rw [Tool.bind_run]
    cases hi : install host installDir (installTarget installDir projectName
        (P.u8aToString entry.version.val)) attBytes binary m with
    | ok u m' => rwa [hi] at hothers
    | error e m' => rwa [hi] at hothers

end Verigov
