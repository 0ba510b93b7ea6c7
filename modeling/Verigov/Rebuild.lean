import Verigov.Builder

/-!
# Rebuilding

A build depends on the files of the tree, the version and the commit, and on
nothing else of the machine it runs on; so two trees with one hash build to the
same binary. The header names version and commit, which is all that a binary
says of where it comes from.
-/

namespace Verigov

open Path FileTree

variable {H : Hashing} {site site' : Site} {args args' : BuildArgs} {rel : Text}

structure Site.Valid (site : Site) : Prop where
  tree : (FileTree.directory site.entries).Valid
  srcDir : Disk.validPath site.srcDir

def Site.files (site : Site) : Set (Text × Bytes) :=
  { x | ∃ l, (l, x.2) ∈ filesOf site.entries ∧ x.1 = unsegment l }

def Site.paths (site : Site) : List Text :=
  Unicode.sort ((filesOf site.entries).map fun f => unsegment f.1)

/-- The tree is read as these files, in the order of their paths. -/
structure Site.Reads (site : Site) (xs : List (Text × Bytes)) : Prop where
  paths : xs.map Prod.fst = site.paths
  read : ∀ x ∈ xs, readSource site.cwd site.srcDir site.entries (join site.srcDir x.1) = some x.2

def buildText (args : BuildArgs) (files : List (Text × Bytes)) : Text :=
  buildHeader args.version args.commit ++
    (files.flatMap fun x => buildSection args.version args.commit x.1 x.2) ++
    if args.inject then injected else []

-- ---------------------------------------------------------------------------
-- The files of a tree
-- ---------------------------------------------------------------------------

theorem Site.Valid.nul_notMem (h : site.Valid) {x : Text × Bytes} (hx : x ∈ site.files) :
    Char.ofNat 0 ∉ x.1 := by
  obtain ⟨l, hf, hl⟩ := hx
  rw [hl]
  exact nul_notMem_unsegment (h.tree.fileName hf)

theorem Site.Valid.listFiles_eq (h : site.Valid) :
    listFiles site.localeCompare site.cwd site.srcDir site.srcDir site.entries = site.paths :=
  Verigov.listFiles_eq site.localeCompare site.cwd h.tree (Disk.validPath_iff.mp h.srcDir).1

theorem Site.mem_paths : rel ∈ site.paths ↔ ∃ content, (rel, content) ∈ site.files := by
  unfold paths files
  rw [(Unicode.sort_perm _).mem_iff]
  simp only [List.mem_map, Prod.exists, Set.mem_ofPred_eq]
  constructor
  · rintro ⟨l, b, hf, rfl⟩
    exact ⟨b, l, hf, rfl⟩
  · rintro ⟨b, l, hf, rfl⟩
    exact ⟨l, b, hf, rfl⟩

theorem Site.Valid.read (h : site.Valid) {x : Text × Bytes} (hx : x ∈ site.files) :
    readSource site.cwd site.srcDir site.entries (join site.srcDir x.1) = some x.2 := by
  obtain ⟨l, hf, hl⟩ := hx
  rw [hl]
  exact readSource_of_mem h.tree h.srcDir site.cwd hf

theorem Site.Valid.exists_reads (h : site.Valid) : ∃ xs, site.Reads xs := by
  have hlist : ∀ rels : List Text, (∀ rel ∈ rels, ∃ content, (rel, content) ∈ site.files) →
      ∃ xs : List (Text × Bytes), xs.map Prod.fst = rels ∧ ∀ x ∈ xs, x ∈ site.files := by
    intro rels hrels
    induction rels with
    | nil => exact ⟨[], rfl, by simp⟩
    | cons rel rels ih =>
      rw [List.forall_mem_cons] at hrels
      obtain ⟨content, hx⟩ := hrels.1
      obtain ⟨xs, hmap, hxs⟩ := ih hrels.2
      exact ⟨(rel, content) :: xs, by simp [hmap], List.forall_mem_cons.mpr ⟨hx, hxs⟩⟩
  obtain ⟨xs, hmap, hxs⟩ := hlist site.paths fun rel hrel => Site.mem_paths.mp hrel
  exact ⟨xs, hmap, fun x hx => h.read (hxs x hx)⟩

theorem Site.Reads.mem_iff {xs : List (Text × Bytes)} (hx : site.Reads xs) (h : site.Valid)
    (x : Text × Bytes) : x ∈ xs ↔ x ∈ site.files := by
  constructor
  · intro hmem
    have hrel : x.1 ∈ site.paths := by
      rw [← hx.paths]
      exact List.mem_map_of_mem hmem
    obtain ⟨content, hfile⟩ := Site.mem_paths.mp hrel
    have hread := h.read hfile
    rw [hx.read x hmem] at hread
    obtain rfl : x.2 = content := Option.some.inj hread
    exact hfile
  · intro hfile
    have hrel : x.1 ∈ xs.map Prod.fst := by
      rw [hx.paths, Site.mem_paths]
      exact ⟨x.2, hfile⟩
    obtain ⟨y, hy, heq⟩ := List.mem_map.mp hrel
    have hread := hx.read y hy
    rw [heq, h.read hfile] at hread
    rwa [Prod.ext heq (Option.some.inj hread).symm] at hy

-- ---------------------------------------------------------------------------
-- Compiling
-- ---------------------------------------------------------------------------

theorem foldlM_sections {read : Text → Option Bytes} (version commit : Text)
    {xs : List (Text × Bytes)} (h : ∀ x ∈ xs, read x.1 = some x.2) (out : Text) :
    (xs.map Prod.fst).foldlM (fun out rel => do
      let content ← read rel
      pure (out ++ buildSection version commit rel content)) out =
        some (out ++ xs.flatMap fun x => buildSection version commit x.1 x.2) := by
  induction xs generalizing out with
  | nil => simp
  | cons x xs ih =>
    rw [List.forall_mem_cons] at h
    rw [List.map_cons, List.foldlM_cons, h.1]
    simp only [Option.bind_eq_bind, Option.bind_some, Option.pure_def]
    have hrest := ih h.2 (out ++ buildSection version commit x.1 x.2)
    simp only [Option.bind_eq_bind, Option.pure_def] at hrest
    rw [hrest, List.flatMap_cons, List.append_assoc]

theorem Site.Reads.compile_eq {xs : List (Text × Bytes)} (hx : site.Reads xs) (h : site.Valid)
    (args : BuildArgs) : compile site args = some (Unicode.utf8 (buildText args xs)) := by
  unfold compile
  rw [h.listFiles_eq, ← hx.paths]
  dsimp only
  rw [foldlM_sections args.version args.commit hx.read]
  unfold buildText
  cases args.inject <;> simp

-- ---------------------------------------------------------------------------
-- The hash of a tree
-- ---------------------------------------------------------------------------

/-- What `sourceTreeHash` hashes of these files. -/
def treeText (H : Hashing) (files : List (Text × Bytes)) : Text :=
  files.flatMap fun x => treeLine x.1 (H.sha256Hex x.2)

theorem Site.Reads.sourceTreeInput_eq {xs : List (Text × Bytes)} (hx : site.Reads xs)
    (h : site.Valid) (H : Hashing) :
    sourceTreeInput H site.localeCompare site.cwd site.srcDir site.entries =
      some (Unicode.utf8 (treeText H xs)) := by
  obtain ⟨hmap, hread⟩ := hx
  have hlines : (xs.map Prod.fst).mapM (fun rel => do
      let content ← readSource site.cwd site.srcDir site.entries (join site.srcDir rel)
      pure (treeLine rel (H.sha256Hex content))) =
        some (xs.map fun x => treeLine x.1 (H.sha256Hex x.2)) := by
    clear hmap
    induction xs with
    | nil => rfl
    | cons x xs ih =>
      rw [List.forall_mem_cons] at hread
      rw [List.map_cons, List.mapM_cons, hread.1, ih hread.2]
      rfl
  unfold sourceTreeInput
  rw [h.listFiles_eq, ← hmap, hlines]
  rfl

/-- The files can be read off the text, up to contents of one hash. -/
theorem treeText_injOn (hH : H.Lawful) {S : Set Bytes} (hfree : Set.InjOn H.sha256 S)
    {xs ys : List (Text × Bytes)} (hx : ∀ x ∈ xs, Char.ofNat 0 ∉ x.1 ∧ x.2 ∈ S)
    (hy : ∀ y ∈ ys, Char.ofNat 0 ∉ y.1 ∧ y.2 ∈ S) (heq : treeText H xs = treeText H ys) :
    xs = ys := by
  refine Unicode.flatMap_injOn (P := fun x : Text × Bytes => Char.ofNat 0 ∉ x.1 ∧ x.2 ∈ S)
    (fun x _ => by simp [treeLine]) ?_ hx hy heq
  intro x y u v hx hy hline
  obtain ⟨hxy, huv⟩ := treeLine_split (x := (x.1, H.sha256Hex x.2)) (y := (y.1, H.sha256Hex y.2))
    hx.1 hy.1 (by rw [hH.sha256Hex, hH.sha256Hex]; simp [Hex.length_hex]) hline
  obtain ⟨hpath, hhash⟩ := Prod.mk.inj hxy
  exact ⟨Prod.ext hpath (hfree hx.2 hy.2 (hH.sha256Hex_inj.mp hhash)), huv⟩

def Site.hashed (H : Hashing) (site : Site) : Set Bytes :=
  { b | (∃ rel, (rel, b) ∈ site.files) ∨
    sourceTreeInput H site.localeCompare site.cwd site.srcDir site.entries = some b }

/-- Trees of one `source_tree_hash` have the same files. -/
theorem Site.Valid.same_files (hH : H.Lawful) (h : site.Valid) (h' : site'.Valid)
    (hfree : Set.InjOn H.sha256 (site.hashed H ∪ site'.hashed H))
    (hhash : sourceTreeHash H site.localeCompare site.cwd site.srcDir site.entries =
      sourceTreeHash H site'.localeCompare site'.cwd site'.srcDir site'.entries) :
    ∃ xs, site.Reads xs ∧ site'.Reads xs := by
  obtain ⟨xs, hxs⟩ := h.exists_reads
  obtain ⟨ys, hys⟩ := h'.exists_reads
  have hxinput := hxs.sourceTreeInput_eq h H
  have hyinput := hys.sourceTreeInput_eq h' H
  simp only [sourceTreeHash, hxinput, hyinput, Option.map_some, Option.some.injEq,
    hH.sha256Hex_inj] at hhash
  have htext := Unicode.utf8_injective (hfree (.inl (.inr hxinput)) (.inr (.inr hyinput)) hhash)
  have hx : ∀ x ∈ xs, Char.ofNat 0 ∉ x.1 ∧ x.2 ∈ site.hashed H ∪ site'.hashed H := by
    intro x hx
    have hfile := (hxs.mem_iff h x).mp hx
    exact ⟨h.nul_notMem hfile, .inl (.inl ⟨x.1, hfile⟩)⟩
  have hy : ∀ y ∈ ys, Char.ofNat 0 ∉ y.1 ∧ y.2 ∈ site.hashed H ∪ site'.hashed H := by
    intro y hy
    have hfile := (hys.mem_iff h' y).mp hy
    exact ⟨h'.nul_notMem hfile, .inr (.inl ⟨y.1, hfile⟩)⟩
  obtain rfl := treeText_injOn hH hfree hx hy htext
  exact ⟨xs, hxs, hys⟩

theorem Site.Reads.hashed_subset {xs : List (Text × Bytes)} (hx : site.Reads xs) (h : site.Valid)
    (H : Hashing) :
    site.hashed H ⊆ { b | b ∈ Unicode.utf8 (treeText H xs) :: xs.map Prod.snd } := by
  rintro b (⟨rel, hfile⟩ | hinput)
  · exact List.mem_cons_of_mem _ (List.mem_map_of_mem ((hx.mem_iff h _).mpr hfile))
  · rw [hx.sourceTreeInput_eq h H] at hinput
    rw [← Option.some.inj hinput]
    exact List.mem_cons_self

/-- Machines on which the tree has one `source_tree_hash` build one binary: how
the directories are listed, where the tree lies and what the locale says do not
matter, if no two of the texts hashed on the way collide. -/
theorem compile_reproducible (hH : H.Lawful) (h : site.Valid) (h' : site'.Valid)
    (hfree : Set.InjOn H.sha256 (site.hashed H ∪ site'.hashed H))
    (hhash : sourceTreeHash H site.localeCompare site.cwd site.srcDir site.entries =
      sourceTreeHash H site'.localeCompare site'.cwd site'.srcDir site'.entries)
    (args : BuildArgs) :
    ∃ binary, compile site args = some binary ∧ compile site' args = some binary := by
  obtain ⟨xs, hx, hx'⟩ := h.same_files hH h' hfree hhash
  exact ⟨_, hx.compile_eq h args, hx'.compile_eq h' args⟩

namespace Mock

def workshop : Site where
  toHost := repoHost
  localeCompare _ _ := 0
  filename := "/repo/tools/builder/build.js".toList
  srcDir := "/repo/fixtures/acme-utils".toList
  entries := sources

def elsewhere : Site where
  cwd := ["w".toList]
  REPO_ROOT := "/w".toList
  cwd_simple := by decide
  localeCompare _ _ := -1
  filename := "/w/build.js".toList
  srcDir := "src/".toList
  entries := relisted

theorem workshop_valid : workshop.Valid := ⟨valid_sources, by decide⟩

theorem elsewhere_valid : elsewhere.Valid := ⟨valid_relisted, by decide⟩

def listing : List (Text × Bytes) := [("lib/a.sh".toList, [0x61]), ("main.sh".toList, [0x6d])]

theorem sort_paths : Unicode.sort (listing.map Prod.fst) = listing.map Prod.fst :=
  List.mergeSort_of_pairwise (by decide +kernel)

theorem workshop_reads : workshop.Reads listing where
  paths := sort_paths.symm.trans (Unicode.sort_eq_of_perm (List.Perm.swap _ _ _))
  read := by decide +kernel

theorem elsewhere_reads : elsewhere.Reads listing where
  paths := sort_paths.symm
  read := by decide +kernel

theorem hashed_free : Set.InjOn hashing.sha256
    (workshop.hashed hashing ∪ elsewhere.hashed hashing) := by
  have hfree : ∀ x ∈ Unicode.utf8 (treeText hashing listing) :: listing.map Prod.snd,
      ∀ y ∈ Unicode.utf8 (treeText hashing listing) :: listing.map Prod.snd,
      hashing.sha256 x = hashing.sha256 y → x = y := by decide +kernel
  have hsub := Set.union_subset (workshop_reads.hashed_subset workshop_valid hashing)
    (elsewhere_reads.hashed_subset elsewhere_valid hashing)
  exact fun x hx y hy => hfree x (hsub hx) y (hsub hy)

theorem same_tree :
    sourceTreeHash hashing workshop.localeCompare workshop.cwd workshop.srcDir workshop.entries =
      sourceTreeHash hashing elsewhere.localeCompare elsewhere.cwd elsewhere.srcDir
        elsewhere.entries := by
  rw [sourceTreeHash, sourceTreeHash, workshop_reads.sourceTreeInput_eq workshop_valid,
    elsewhere_reads.sourceTreeInput_eq elsewhere_valid]

end Mock

theorem compile_reproducible_relisted : ∃ binary,
    compile Mock.workshop ⟨"1.2.3".toList, "c0ff33d".toList, false⟩ = some binary ∧
      compile Mock.elsewhere ⟨"1.2.3".toList, "c0ff33d".toList, false⟩ = some binary :=
  compile_reproducible Mock.hashing_lawful Mock.workshop_valid Mock.elsewhere_valid
    Mock.hashed_free Mock.same_tree _

-- ---------------------------------------------------------------------------
-- What a binary says
-- ---------------------------------------------------------------------------

structure BuildArgs.OneLine (args : BuildArgs) : Prop where
  version : '\n' ∉ args.version
  commit : '\n' ∉ args.commit

theorem foldlM_prefix {read : Text → Option Bytes} {version commit : Text} {rels : List Text}
    {out out' : Text} (h : rels.foldlM (fun out rel => do
      let content ← read rel
      pure (out ++ buildSection version commit rel content)) out = some out') : out <+: out' := by
  induction rels generalizing out with
  | nil =>
    obtain rfl := Option.some.inj h
    exact List.prefix_refl _
  | cons rel rels ih =>
    rw [List.foldlM_cons] at h
    obtain ⟨next, hnext, h⟩ := Option.bind_eq_some_iff.mp h
    obtain ⟨content, -, hcontent⟩ := Option.bind_eq_some_iff.mp hnext
    obtain rfl := Option.some.inj hcontent
    exact (List.prefix_append _ _).trans (ih h)

/-- Every build starts with its header, and the payload is what comes last. -/
theorem compile_eq_some (site : Site) (version commit : Text) :
    (∀ inject, compile site ⟨version, commit, inject⟩ = none) ∨
      ∃ sections, ∀ inject, compile site ⟨version, commit, inject⟩ =
        some (Unicode.utf8 (buildHeader version commit ++
          (sections ++ if inject then injected else []))) := by
  simp only [compile]
  cases hout : (listFiles site.localeCompare site.cwd site.srcDir site.srcDir site.entries).foldlM
    (fun out rel => do
      let content ← readSource site.cwd site.srcDir site.entries (join site.srcDir rel)
      pure (out ++ buildSection version commit rel content)) (buildHeader version commit) with
  | none => exact .inl fun _ => rfl
  | some out =>
    obtain ⟨sections, rfl⟩ := foldlM_prefix hout
    refine .inr ⟨sections, fun inject => ?_⟩
    cases inject <;> simp

theorem injected_ne_nil : injected ≠ [] := by
  intro h
  have hlen := congrArg List.length h
  revert hlen
  decide +kernel

theorem buildHeader_inj {version commit version' commit' x y : Text} (hv : '\n' ∉ version)
    (hc : '\n' ∉ commit) (hv' : '\n' ∉ version') (hc' : '\n' ∉ commit')
    (heq : buildHeader version commit ++ x = buildHeader version' commit' ++ y) :
    version = version' ∧ commit = commit' ∧ x = y := by
  unfold buildHeader at heq
  generalize "#!/bin/sh\n# ".toList ++ PROJECT = start at heq
  generalize "# source_commit=".toList = source at heq
  generalize "# built by the VeriGov hermetic toy builder\nset -e\n".toList = built at heq
  simp only [List.append_assoc, List.cons_append] at heq
  have hline := (List.cons.inj (List.append_cancel_left heq)).2
  obtain ⟨hversion, heq⟩ := append_cons_inj hv hv' hline
  obtain ⟨hcommit, heq⟩ := append_cons_inj hc hc' (List.append_cancel_left heq)
  exact ⟨hversion, hcommit, List.append_cancel_left heq⟩

/-- Builds under another version or commit are other binaries, whatever the trees,
and so are the builds of one tree with and without the payload. -/
theorem compile_names (site site' : Site) (args args' : BuildArgs) (h : args.OneLine)
    (h' : args'.OneLine) {binary binary' : Bytes} (hbuild : compile site args = some binary)
    (hbuild' : compile site' args' = some binary')
    (hdiff : args.version ≠ args'.version ∨ args.commit ≠ args'.commit ∨
      site = site' ∧ args.inject ≠ args'.inject) : binary ≠ binary' := by
  rintro rfl
  obtain ⟨version, commit, inject⟩ := args
  obtain ⟨version', commit', inject'⟩ := args'
  rcases compile_eq_some site version commit with hnone | ⟨x, hx⟩
  · rw [hnone] at hbuild
    cases hbuild
  rcases compile_eq_some site' version' commit' with hnone | ⟨y, hy⟩
  · rw [hnone] at hbuild'
    cases hbuild'
  rw [hx, ← hbuild', hy, Option.some.injEq, Unicode.utf8_injective.eq_iff] at hbuild
  obtain ⟨rfl, rfl, hrest⟩ := buildHeader_inj h.version h.commit h'.version h'.commit hbuild
  obtain hne | hne | ⟨rfl, hinject⟩ := hdiff
  · exact hne rfl
  · exact hne rfl
  have hsame : x = y := by
    have hfalse := (hx false).symm.trans (hy false)
    simpa [Unicode.utf8_injective.eq_iff] using hfalse
  subst hsame
  have hlast := List.append_cancel_left hrest
  have hne := injected_ne_nil
  cases inject <;> cases inject' <;> simp_all

theorem compile_names_patch :
    Unicode.utf8 (buildText ⟨"1.2.3".toList, "c0ff33d".toList, false⟩ Mock.listing) ≠
      Unicode.utf8 (buildText ⟨"1.2.4".toList, "c0ff33d".toList, false⟩ Mock.listing) :=
  compile_names _ _ _ _ ⟨by decide, by decide⟩ ⟨by decide, by decide⟩
    (Mock.workshop_reads.compile_eq Mock.workshop_valid _)
    (Mock.elsewhere_reads.compile_eq Mock.elsewhere_valid _) (.inl (by decide))

end Verigov
