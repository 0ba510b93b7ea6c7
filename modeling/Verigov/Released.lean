import Verigov.Attesting
import Verigov.Rebuild
import Verigov.Verdicts

/-!
# From the builder to the client

A build that is pinned, proposed and logged installs as the binary that was
compiled. A rebuild elsewhere shows what the builder did: it gives no ground to
challenge an honest build, and every stakeholder but the builder can use it
against a build with the payload.
-/

namespace Verigov

open State Transition Path Hex

variable {AccountId : Type} [DecidableEq AccountId] {S : Schemes AccountId}
  {currency : Currency HoldReason AccountId DispatchError} {readsWrites : Nat → Nat → Weight}
  {P : Platform AccountId} {site : Site} {args : BuildArgs} {builder : KeyringPair P}
  {d d' : Disk} {r : Built}

omit [DecidableEq AccountId] in
theorem Stored.storePuts (hP : P.Lawful) {host : Host} {bytes : Bytes}
    (hfits : host.StoreFits) (h : Stored P host d (P.sha256 bytes) bytes)
    (puts : List Bytes) :
    Stored P host (storePuts P.toHashing host puts d) (P.sha256 bytes) bytes := by
  have hnode := (Disk.readFileSync_eq_some.mp h.file).2.2
  rw [resolve_store] at hnode
  exact stored_of_node hfits (node_storePuts_of_some hP.toLawful puts hnode)

namespace Mock

theorem toolchain_agrees : Agrees toolchain schemes :=
  ⟨(platform_agrees []).sr25519, (platform_agrees []).others⟩

def submission (args : BuildArgs) (A : BuildAttestation Nat) : Action Chain :=
  .call (.signed 1) (.newRelease 0 version A
    (hashing.sha256 (shipmentJson args.version A)) ⟨.sr25519, key.sign A.signingPayload⟩)

theorem release_runs :
    (exec [found, submission honest (shipment honest commitId_honest), .block] launch).any fun x =>
      (x.2.releaseLog.get (0, 0)).any (fun e => e.proposalId == 0 && e.version.val == [0x31]) &&
        decide (ProposalIdsBelowMax x.2) &&
        decide (∀ e ∈ x.2.proposals.toFinmap.entries, e.1 = 0) := by
  decide +kernel

theorem release_logged : ∃ tr s m n e, Reaches (T := Chain) tr s ∧ Along FreshProposal tr ∧
    (m, submission honest (shipment honest commitId_honest), n) ∈ stepsOf tr s ∧
    s.releaseLog.get (0, 0) = some e ∧ e.proposalId = m.nextProposalId ∧
    e.version.val = [0x31] := by
  obtain ⟨⟨tr, s⟩, hexec, hfacts⟩ := (Option.any_eq_true _ _).mp release_runs
  simp only [Bool.and_eq_true, decide_eq_true_eq] at hfacts
  obtain ⟨⟨hlog, hmax⟩, hids⟩ := hfacts
  obtain ⟨e, he, hentry⟩ := (Option.any_eq_true _ _).mp hlog
  simp only [Bool.and_eq_true, beq_iff_eq] at hentry
  have hreach : Reaches tr s :=
    ⟨launch, ⟨1, vault, rfl, fun r a => StorageMap.getD_empty (r, a) 0⟩, exec_run hexec⟩
  have hfresh := (hreach.freshProposal hmax).1
  have hmem : submission honest (shipment honest commitId_honest) ∈ tr.map Prod.snd := by
    rw [exec_actions hexec]
    simp
  obtain ⟨x, hx, haction⟩ := List.mem_map.mp hmem
  obtain ⟨n, hn⟩ := exists_mem_stepsOf s hx
  rw [haction] at hn
  obtain ⟨-, pr, hpr, -⟩ := hreach.filed hfresh hn
  have hkey := StorageMap.forall_keys (P := (· = 0)) |>.mp hids
  exact ⟨tr, s, x.1, n, e, hreach, hfresh, hn, he,
    hentry.1.trans (hkey _ (Option.isSome_iff_exists.mpr ⟨pr, hpr⟩)).symm, hentry.2⟩

theorem installable_built {args : BuildArgs} {r : Built} {d' : Disk}
    (hrun : buildAndAttest toolchain workshop args key true checkout = .ok r d') :
    Installable repoHost d' installDir (installTarget installDir "a".toList "1".toList) := by
  obtain ⟨-, cid, cid', m, hput, hput'⟩ :=
    buildAndAttest_eq_ok (T := Chain) toolchain_lawful hashing_lowersDigits hrun
  have hstore : resolve repoHost.cwd repoHost.STORE_DIR =
      ["repo".toList, "data".toList, "store".toList] := by decide +kernel
  have htarget : resolve repoHost.cwd (installTarget installDir "a".toList "1".toList) =
      ["repo".toList, "install".toList, "a-1".toList] := by decide +kernel
  have hattestation : resolve repoHost.cwd
      (attestationTarget (installTarget installDir "a".toList "1".toList)) =
        ["repo".toList, "install".toList, "a-1.attestation.json".toList] := by decide +kernel
  have hdir : resolve repoHost.cwd installDir = ["repo".toList, "install".toList] := by
    decide +kernel
  have hbeside : ∀ rest, d'.node ("repo".toList :: "install".toList :: rest) =
      checkout.node ("repo".toList :: "install".toList :: rest) := by
    intro rest
    have hpre : ∀ bytes, ¬ "repo".toList :: "install".toList :: rest <+:
        storeLocation hashing repoHost bytes := by
      intro bytes hpre
      rw [storeLocation, hstore] at hpre
      simp [List.cons_prefix_cons] at hpre
    rw [storePut_beside hashing_lawful hput' (hpre _), storePut_beside hashing_lawful hput (hpre _)]
  have hstored := (storePut_eq_ok hashing_lawful hput').2.2
  have hparent : d'.node (resolve repoHost.cwd repoHost.STORE_DIR) = some .directory :=
    Disk.node_parent d' _ (hex (hashing.sha256 r.attestationJson).toList)
      (Option.isSome_of_eq_some hstored)
  refine ⟨by decide, fun l bytes hl hfile => ?_, ?_, ?_⟩
  · rw [hdir, ← List.singleton_append] at hl
    obtain rfl | hl := List.prefix_concat_iff.mp hl
    · have hfree : checkout.node ["repo".toList, "install".toList] = none := by decide +kernel
      rw [← hbeside []] at hfree
      exact absurd (hfree.symm.trans hfile) (by simp)
    · have hlead : l <+: resolve repoHost.cwd repoHost.STORE_DIR := by
        rw [hstore]
        exact hl.trans (List.prefix_append _ _)
      rw [Disk.node_of_prefix hparent hlead] at hfile
      cases hfile
  · refine ⟨by decide +kernel, by decide +kernel, by rw [htarget]; simp, .inr ?_, ?_⟩
    · rw [htarget, hdir]
      decide
    · rw [htarget, hdir, hbeside]
      decide +kernel
  · refine ⟨by decide +kernel, by decide +kernel, by rw [hattestation]; simp, .inr ?_, ?_⟩
    · rw [hattestation, hdir]
      decide
    · rw [hattestation, hdir, hbeside]
      decide +kernel

end Mock

def Site.buildHashed (H : Hashing) (site : Site) (version commit : Text) : Set Bytes :=
  site.hashed H ∪ { b | ∃ inject, compile site ⟨version, commit, inject⟩ = some b }

theorem compile_inject {site : Site} {version commit : Text} {binary : Bytes}
    (h : compile site ⟨version, commit, false⟩ = some binary) :
    compile site ⟨version, commit, true⟩ ≠ some binary := by
  intro h'
  rcases compile_eq_some site version commit with hnone | ⟨sections, hall⟩
  · rw [hnone] at h
    cases h
  · rw [← h, hall, hall, Option.some.injEq, Unicode.utf8_injective.eq_iff] at h'
    exact injected_ne_nil (by simpa using h')

/-- An honest rebuild, wherever the tree with the attested hash is checked out,
decides a challenge: against a build with the payload any stakeholder but the
builder succeeds with it, against one without nobody does. -/
theorem rebuild_decides {T : Config} {P : Platform T.AccountId} {site site' : Site}
    {args : BuildArgs} {builder : KeyringPair P} {A : BuildAttestation T.AccountId}
    (hP : P.Lawful) (h : site.Valid) (h' : site'.Valid) (hA : BuiltFrom P site args builder d r A)
    (hfree : Set.InjOn P.sha256 (site.buildHashed P.toHashing args.version args.commit ∪
      site'.buildHashed P.toHashing args.version args.commit))
    (hhash : sourceTreeHash P.toHashing site'.localeCompare site'.cwd site'.srcDir site'.entries =
      some (P.u8aToHex A.sourceTreeHash.toList))
    (hhold : T.currency.HoldExact) (hrel : T.currency.ReleaseExact)
    (hkept : T.currency.ReleaseKeepsReasons) (hburn : T.currency.BurnExact)
    (hsucc : T.currency.BurnSucceeds) (hkeeps : T.currency.BurnKeepsReasons) :
    ∃ rebuilt, compile site' ⟨args.version, args.commit, false⟩ = some rebuilt ∧
      ∀ (s : State T) id pr who, Reachable s → s.proposals.get id = some pr →
        pr.status.isOpen = true → pr.attestation = A →
        (s.stakeholders.get (pr.projectId, who)).isSome → who ≠ A.builder →
        errorOf (submitCounterAttestation (.signed who) id (P.sha256 rebuilt) s) =
          if args.inject then none else some (.pallet .noDiscrepancy) := by
  obtain ⟨version, commit, inject⟩ := args
  obtain ⟨input, hinput, htree⟩ := hA.describes.tree
  have hsame : sourceTreeHash P.toHashing site.localeCompare site.cwd site.srcDir site.entries =
      sourceTreeHash P.toHashing site'.localeCompare site'.cwd site'.srcDir site'.entries := by
    rw [hhash, sourceTreeHash, hinput, htree]
    rfl
  obtain ⟨xs, hx, hx'⟩ := h.same_files hP.toLawful h'
    (hfree.mono (Set.union_subset_union Set.subset_union_left Set.subset_union_left)) hsame
  have hbuild := fun inject => hx.compile_eq h ⟨version, commit, inject⟩
  refine ⟨_, hx'.compile_eq h' ⟨version, commit, false⟩, ?_⟩
  rintro s id pr who ⟨tr, hr⟩ hpr ho rfl hwho hne
  have hmem := fun inject => Set.mem_union_left
    (site'.buildHashed P.toHashing version commit) (Set.mem_union_right (site.hashed P.toHashing)
      (show _ ∈ { b | ∃ inject, compile site ⟨version, commit, inject⟩ = some b } from
        ⟨inject, hbuild inject⟩))
  rw [errorOf_submitCounterAttestation hsucc hkeeps hrel hr.hasProject hr.partiesRegistered
    (hr.covered hhold hrel hkeeps) (hr.escrowed hhold hburn hkept)]
  have hcompiled := hA.compiled
  rw [hbuild inject, Option.some.injEq] at hcompiled
  have hattested : pr.attestation.outputBinaryHash =
      P.sha256 (Unicode.utf8 (buildText ⟨version, commit, inject⟩ xs)) := by
    rw [hA.describes.binary, hcompiled]
  simp only [counterChecks, hpr, refusal, StorageMap.containsKey, hwho, hne, ho, bne_iff_ne, ne_eq,
    not_false_eq_true, if_true, hattested]
  cases inject with
  | false => simp
  | true =>
    have hdiff : ¬ P.sha256 (Unicode.utf8 (buildText ⟨version, commit, false⟩ xs)) =
        P.sha256 (Unicode.utf8 (buildText ⟨version, commit, true⟩ xs)) := by
      intro heq
      have hbytes := hfree (hmem false) (hmem true) heq
      exact compile_inject (hbuild false) (by rw [hbuild true, hbytes])
    simp [hdiff]

namespace Mock

theorem buildHashed_free : Set.InjOn hashing.sha256
    (workshop.buildHashed hashing honest.version honest.commit ∪
      elsewhere.buildHashed hashing honest.version honest.commit) := by
  let texts := (Unicode.utf8 (treeText hashing listing) :: listing.map Prod.snd) ++
    [false, true].map fun inject =>
      Unicode.utf8 (buildText { honest with inject } listing)
  have hsub : ∀ {site : Site}, site.Valid → site.Reads listing →
      site.buildHashed hashing honest.version honest.commit ⊆ { b | b ∈ texts } := by
    rintro site h hx b (hb | ⟨inject, hb⟩)
    · exact List.mem_append_left _ (hx.hashed_subset h hashing hb)
    · rw [hx.compile_eq h, Option.some.injEq] at hb
      refine List.mem_append_right _ (List.mem_map.mpr ⟨inject, ?_, hb⟩)
      cases inject <;> simp
  have hnodup : (texts.map hashing.sha256).Nodup := by
    simp only [texts, Unicode.utf8_eq_flatMap]
    decide +kernel
  have hunion := Set.union_subset (hsub workshop_valid workshop_reads)
    (hsub elsewhere_valid elsewhere_reads)
  exact fun x hx y hy => List.inj_on_of_nodup_map hnodup (hunion hx) (hunion hy)

theorem elsewhere_treeHash (args : BuildArgs) (h : CommitId args.commit) :
    sourceTreeHash hashing elsewhere.localeCompare elsewhere.cwd elsewhere.srcDir
      elsewhere.entries = some (hashing.u8aToHex (shipment args h).sourceTreeHash.toList) := by
  rw [sourceTreeHash, elsewhere_reads.sourceTreeInput_eq elsewhere_valid, Option.map_some]
  rfl

theorem tampered_runs :
    (exec [found, submission tampered (shipment tampered commitId_honest)] launch).any fun x =>
      (x.2.proposals.get 0).any (fun pr => pr.projectId == 0 && pr.status.isOpen &&
        decide (pr.attestation = shipment tampered commitId_honest)) &&
      (x.2.stakeholders.get (0, 9)).isSome := by
  decide +kernel

end Mock

theorem rebuild_decides_tampered : ∃ rebuilt s, Reachable (T := Mock.Chain) s ∧
    compile Mock.elsewhere ⟨"1.2.3".toList, "c0ff33d".toList, false⟩ = some rebuilt ∧
    errorOf (submitCounterAttestation (.signed (9 : Nat)) 0 (Mock.hashing.sha256 rebuilt) s) =
      none := by
  obtain ⟨r, d', hrun⟩ := Mock.build_returns Mock.tampered Mock.commitId_honest
  obtain ⟨⟨A, hA⟩, -⟩ := buildAndAttest_eq_ok (T := Mock.Chain) Mock.toolchain_lawful
    Mock.hashing_lowersDigits hrun
  obtain ⟨-, rfl, -⟩ := Mock.shipment_eq hA Mock.commitId_honest
  obtain ⟨rebuilt, hcompile, hdecides⟩ := rebuild_decides (T := Mock.Chain) Mock.toolchain_lawful
    Mock.workshop_valid Mock.elsewhere_valid hA Mock.buildHashed_free
    (Mock.elsewhere_treeHash _ Mock.commitId_honest) Ledger.holdExact Ledger.releaseExact
    Ledger.releaseKeepsReasons Ledger.burnExact Ledger.burnSucceeds Ledger.burnKeepsReasons
  obtain ⟨⟨tr, s⟩, hexec, hfacts⟩ := (Option.any_eq_true _ _).mp Mock.tampered_runs
  simp only [Bool.and_eq_true] at hfacts
  obtain ⟨hpr, hwho⟩ := hfacts
  obtain ⟨pr, hpr, hfacts⟩ := (Option.any_eq_true _ _).mp hpr
  simp only [Bool.and_eq_true, beq_iff_eq, decide_eq_true_eq] at hfacts
  obtain ⟨⟨hproject, hopen⟩, hattestation⟩ := hfacts
  have hreach : Reachable s :=
    ⟨tr, Mock.launch, ⟨1, Mock.vault, rfl, fun r a => StorageMap.getD_empty (r, a) 0⟩,
      exec_run hexec⟩
  exact ⟨rebuilt, s, hreach, hcompile, hdecides s 0 pr 9 hreach hpr hopen hattestation
    (by rw [hproject]; exact hwho) (by decide)⟩

end Verigov
