import Verigov.Store
import Verigov.Lib.FileTree
import Verigov.Lib.Unicode
import Mathlib.Data.List.Perm.Basic

/-!
# The source tree hash

`listFiles` and `sourceTreeHash` of `tools/builder/build.js`. The inner sort
follows the locale and the order of a directory's listing may decide ties; the
outer one, by code units, is total, so what is hashed depends on the files
alone. Its lines are not escaped and still determine the files: a path has no
NUL, and what follows it has a fixed length. Files and directories are all there
is in a tree, and no path in it is too long to be read.
-/

namespace Verigov

open Path FileTree

section

variable (localeCompare : Text → Text → Int) (cwd : Location) (base : Text)

def collect (each : List (Text × List Text)) : List Text :=
  Unicode.sort ((each.mergeSort fun a b => localeCompare a.1 b.1 ≤ 0).flatMap Prod.snd)

mutual

def pushed (full : Text) : FileTree → List Text
  | .file _ => [unsegment (segments (relative cwd base full))]
  | .directory entries => collect localeCompare (pushedEach full entries)

def pushedEach (dir : Text) : List (Text × FileTree) → List (Text × List Text)
  | [] => []
  | (name, t) :: entries => (name, pushed (join dir name) t) :: pushedEach dir entries

end

def listFiles (dir : Text) (entries : List (Text × FileTree)) : List Text :=
  collect localeCompare (pushedEach localeCompare cwd base dir entries)

end

section

variable (H : Hashing) (localeCompare : Text → Text → Int) (cwd : Location) (srcDir : Text)
  (entries : List (Text × FileTree))

/-- `fs.readFileSync` where `srcDir` has these entries. -/
def readSource (p : Text) : Option Bytes :=
  if Disk.validPath p && !hasTrailingSep p && (resolve cwd srcDir).isPrefixOf (resolve cwd p) then
    read (.directory entries) ((resolve cwd p).drop (resolve cwd srcDir).length)
  else none

def treeLine (rel hash : Text) : Text := rel ++ Char.ofNat 0 :: hash ++ ['\n']

def sourceTreeInput : Option Bytes := do
  let lines ← (listFiles localeCompare cwd srcDir srcDir entries).mapM fun rel => do
    let content ← readSource cwd srcDir entries (join srcDir rel)
    pure (treeLine rel (H.sha256Hex content))
  pure (Unicode.utf8 lines.flatten)

def sourceTreeHash : Option Text :=
  (sourceTreeInput H localeCompare cwd srcDir entries).map H.sha256Hex

def treeHashes : Set (Text × Text) :=
  { x | ∃ l content, (l, content) ∈ filesOf entries ∧ x = (unsegment l, H.sha256Hex content) }

end

variable {H : Hashing} {localeCompare : Text → Text → Int} {cwd : Location} {base srcDir dir : Text}
  {entries : List (Text × FileTree)} {t : FileTree} {l : Location}

-- ---------------------------------------------------------------------------
-- Listing
-- ---------------------------------------------------------------------------

theorem collect_perm (localeCompare : Text → Text → Int) (each : List (Text × List Text)) :
    (collect localeCompare each).Perm (each.flatMap Prod.snd) :=
  (Unicode.sort_perm _).trans ((List.mergeSort_perm _ _).flatMap_right _)

theorem pushedEach_eq (localeCompare : Text → Text → Int) (cwd : Location) (base dir : Text)
    (entries : List (Text × FileTree)) : pushedEach localeCompare cwd base dir entries =
      entries.map fun e => (e.1, pushed localeCompare cwd base (join dir e.1) e.2) := by
  induction entries with
  | nil => rfl
  | cons e entries ih =>
    obtain ⟨name, t⟩ := e
    simp [pushedEach, ih]

theorem pushed_perm (localeCompare : Text → Text → Int) (hv : t.Valid) {full : Text}
    (hfull : full ≠ []) (hl : resolve cwd full = resolve cwd base ++ l) :
    (pushed localeCompare cwd base full t).Perm (t.files.map fun f => unsegment (l ++ f.1)) := by
  induction hv generalizing full l with
  | file bytes => simp [pushed, relative_of_below hl, unsegment_segments]
  | directory entries hdistinct hnames hbelow ih =>
    rw [pushed, pushedEach_eq, files_directory, filesOf_eq, List.map_flatMap]
    refine (collect_perm _ _).trans ?_
    rw [List.flatMap_map]
    refine List.Perm.flatMap_left _ fun e he => ?_
    have hchild : resolve cwd (join full e.1) = resolve cwd base ++ (l ++ [e.1]) := by
      rw [resolve_join_simple cwd hfull (hnames e he).1, hl, List.append_assoc]
    simpa [Function.comp_def] using ih e he (join_ne_nil _ _) hchild

/-- The list of files depends on the files alone. -/
theorem listFiles_eq (localeCompare : Text → Text → Int) (cwd : Location)
    (hv : (FileTree.directory entries).Valid) (hdir : srcDir ≠ []) :
    listFiles localeCompare cwd srcDir srcDir entries =
      Unicode.sort ((filesOf entries).map fun f => unsegment f.1) := by
  have htop : resolve cwd srcDir = resolve cwd srcDir ++ [] := by simp
  have hperm := pushed_perm localeCompare hv hdir htop
  simp only [pushed, files_directory, List.nil_append] at hperm
  unfold listFiles collect
  apply Unicode.sort_eq_of_perm
  exact (Unicode.sort_perm _).symm.trans hperm

-- ---------------------------------------------------------------------------
-- Reading
-- ---------------------------------------------------------------------------

theorem nul_notMem_unsegment (h : ∀ name ∈ l, FileName name) : Char.ofNat 0 ∉ unsegment l := by
  intro hmem
  rcases mem_unsegment hmem with h0 | ⟨name, hname, hc⟩
  · cases h0
  · exact (h name hname).2 hc

theorem ne_nil_of_mem_filesOf (hf : (l, bytes) ∈ filesOf entries) : l ≠ [] := by
  obtain ⟨e, -, m, rfl, -⟩ := mem_filesOf.mp hf
  simp

theorem readSource_of_mem (hv : (FileTree.directory entries).Valid) (hsrc : Disk.validPath srcDir)
    (cwd : Location) (hf : (l, bytes) ∈ filesOf entries) :
    readSource cwd srcDir entries (join srcDir (unsegment l)) = some bytes := by
  have hnames := hv.fileName hf
  have hdir := (Disk.validPath_iff.mp hsrc).1
  have hne := ne_nil_of_mem_filesOf hf
  have hvalid := Disk.validPath_join hsrc (nul_notMem_unsegment hnames)
  have hsep := hasTrailingSep_join_unsegment hdir (fun name h => (hnames name h).1) hne
  have hloc := resolve_join_unsegment cwd hdir (fun name h => (hnames name h).1) hne
  unfold readSource
  rw [hvalid, hsep, hloc, if_pos (by simp), List.drop_left]
  exact hv.read_of_mem hf

theorem treeHashes_functional (hv : (FileTree.directory entries).Valid) {x y : Text × Text}
    (hx : x ∈ treeHashes H entries) (hy : y ∈ treeHashes H entries) (h : x.1 = y.1) : x = y := by
  obtain ⟨l, b, hf, rfl⟩ := hx
  obtain ⟨l', b', hf', rfl⟩ := hy
  have hl : l = l' := unsegment_inj (fun name hn => (hv.fileName hf name hn).1.no_sep)
    (fun name hn => (hv.fileName hf' name hn).1.no_sep) (ne_nil_of_mem_filesOf hf)
    (ne_nil_of_mem_filesOf hf') h
  subst hl
  have hread := hv.read_of_mem hf
  rw [hv.read_of_mem hf'] at hread
  rw [Option.some.inj hread]

theorem paths_nodup (hv : (FileTree.directory entries).Valid) :
    ((filesOf entries).map fun f => unsegment f.1).Nodup := by
  have hnodup := hv.files_nodup
  rw [files_directory, List.Nodup, List.pairwise_map] at hnodup
  rw [List.Nodup, List.pairwise_map]
  refine hnodup.imp_of_mem fun {f g} hf hg hne heq => hne ?_
  exact unsegment_inj (fun name hn => (hv.fileName hf name hn).1.no_sep)
    (fun name hn => (hv.fileName hg name hn).1.no_sep) (ne_nil_of_mem_filesOf hf)
    (ne_nil_of_mem_filesOf hg) heq

theorem mem_paths {rel : Text} : rel ∈ (filesOf entries).map (fun f => unsegment f.1) ↔
    ∃ hash, (rel, hash) ∈ treeHashes H entries := by
  simp only [List.mem_map, treeHashes, Set.mem_ofPred_eq, Prod.mk.injEq, Prod.exists]
  constructor
  · rintro ⟨l, b, hf, rfl⟩
    exact ⟨_, l, b, hf, rfl, rfl⟩
  · rintro ⟨hash, l, b, hf, rfl, rfl⟩
    exact ⟨l, b, hf, rfl⟩

-- ---------------------------------------------------------------------------
-- Lines
-- ---------------------------------------------------------------------------

theorem lines_of_paths (hv : (FileTree.directory entries).Valid) (hsrc : Disk.validPath srcDir)
    (cwd : Location) {rels : List Text}
    (h : ∀ rel ∈ rels, ∃ hash, (rel, hash) ∈ treeHashes H entries) :
    ∃ xs : List (Text × Text), xs.map Prod.fst = rels ∧ (∀ x ∈ xs, x ∈ treeHashes H entries) ∧
      (rels.mapM fun rel => do
        let content ← readSource cwd srcDir entries (join srcDir rel)
        pure (treeLine rel (H.sha256Hex content))) = some (xs.map fun x => treeLine x.1 x.2) := by
  induction rels with
  | nil => exact ⟨[], rfl, by simp, rfl⟩
  | cons rel rels ih =>
    rw [List.forall_mem_cons] at h
    obtain ⟨⟨hash, hx⟩, hrest⟩ := h
    obtain ⟨xs, hmap, hmem, hlines⟩ := ih hrest
    have hx' := hx
    obtain ⟨l, b, hf, heq⟩ := hx'
    cases heq
    refine ⟨(unsegment l, H.sha256Hex b) :: xs, by simp [hmap], ?_, ?_⟩
    · rw [List.forall_mem_cons]
      exact ⟨hx, hmem⟩
    · rw [List.mapM_cons, hlines, readSource_of_mem hv hsrc cwd hf]
      rfl

theorem sourceTreeInput_eq (H : Hashing) (localeCompare : Text → Text → Int) (cwd : Location)
    (hv : (FileTree.directory entries).Valid) (hsrc : Disk.validPath srcDir) :
    ∃ xs : List (Text × Text),
      sourceTreeInput H localeCompare cwd srcDir entries =
        some (Unicode.utf8 (xs.flatMap fun x => treeLine x.1 x.2)) ∧
      xs.map Prod.fst = Unicode.sort ((filesOf entries).map fun f => unsegment f.1) ∧
      ∀ x, x ∈ xs ↔ x ∈ treeHashes H entries := by
  have hdir := (Disk.validPath_iff.mp hsrc).1
  have hlist := listFiles_eq localeCompare cwd hv hdir
  have hpaths : ∀ rel, rel ∈ Unicode.sort ((filesOf entries).map fun f => unsegment f.1) ↔
      ∃ hash, (rel, hash) ∈ treeHashes H entries := by
    intro rel
    rw [(Unicode.sort_perm _).mem_iff]
    exact mem_paths
  obtain ⟨xs, hmap, hmem, hlines⟩ :=
    lines_of_paths hv hsrc cwd (fun rel hrel => (hpaths rel).mp hrel)
  refine ⟨xs, ?_, hmap, fun x => ⟨hmem x, fun hx => ?_⟩⟩
  · unfold sourceTreeInput
    rw [hlist, hlines]
    rfl
  · have hrel : x.1 ∈ xs.map Prod.fst := by
      rw [hmap, hpaths]
      exact ⟨x.2, hx⟩
    obtain ⟨y, hy, heq⟩ := List.mem_map.mp hrel
    rwa [← treeHashes_functional hv (hmem y hy) hx heq]

theorem append_cons_inj {c : Char} {x y u v : Text} (hx : c ∉ x) (hy : c ∉ y)
    (h : x ++ c :: u = y ++ c :: v) : x = y ∧ u = v := by
  induction x generalizing y with
  | nil =>
    cases y with
    | nil => simpa using h
    | cons d y =>
      simp only [List.nil_append, List.cons_append, List.cons.injEq] at h
      simp [h.1] at hy
  | cons d x ih =>
    cases y with
    | nil =>
      simp only [List.nil_append, List.cons_append, List.cons.injEq] at h
      simp [h.1] at hx
    | cons d' y =>
      simp only [List.cons_append, List.cons.injEq] at h
      simp only [List.mem_cons, not_or] at hx hy
      obtain ⟨rfl, h⟩ := h
      obtain ⟨rfl, rfl⟩ := ih hx.2 hy.2 h
      exact ⟨rfl, rfl⟩

/-- A line is read up to its NUL, and from there over 66 characters and the end of line. -/
theorem treeLine_split {x y : Text × Text} {u v : Text} (hx : Char.ofNat 0 ∉ x.1)
    (hy : Char.ofNat 0 ∉ y.1) (hlen : x.2.length = y.2.length)
    (h : treeLine x.1 x.2 ++ u = treeLine y.1 y.2 ++ v) : x = y ∧ u = v := by
  simp only [treeLine, List.append_assoc, List.cons_append, List.nil_append] at h
  obtain ⟨h1, h⟩ := append_cons_inj hx hy h
  obtain ⟨h2, h⟩ := List.append_inj h hlen
  exact ⟨Prod.ext h1 h2, List.tail_eq_of_cons_eq h⟩

theorem nul_notMem_of_mem_treeHashes (hv : (FileTree.directory entries).Valid) {x : Text × Text}
    (hx : x ∈ treeHashes H entries) : Char.ofNat 0 ∉ x.1 := by
  obtain ⟨l, b, hf, rfl⟩ := hx
  exact nul_notMem_unsegment (hv.fileName hf)

theorem eq_of_map_fst {α β : Type} {S : Set (α × β)}
    (hS : ∀ x ∈ S, ∀ y ∈ S, x.1 = y.1 → x = y) {xs ys : List (α × β)} (hx : ∀ x ∈ xs, x ∈ S)
    (hy : ∀ y ∈ ys, y ∈ S) (h : xs.map Prod.fst = ys.map Prod.fst) : xs = ys := by
  induction xs generalizing ys with
  | nil => exact (List.map_eq_nil_iff.mp h.symm).symm
  | cons x xs ih =>
    obtain ⟨y, ys, rfl, hxy, h⟩ := List.map_eq_cons_iff.mp h.symm
    rw [List.forall_mem_cons] at hx hy
    rw [hS x hx.1 y hy.1 hxy.symm, ih hx.2 hy.2 h.symm]

namespace Mock

def sources : List (Text × FileTree) :=
  [("main.sh".toList, .file [0x6d]), ("lib".toList, .directory [("a.sh".toList, .file [0x61])])]

def relisted : List (Text × FileTree) :=
  [("lib".toList, .directory [("a.sh".toList, .file [0x61])]), ("main.sh".toList, .file [0x6d])]

theorem valid_lib : (FileTree.directory [("a.sh".toList, .file [0x61])]).Valid := by
  refine .directory _ (by decide) (by decide) fun e he => ?_
  rw [List.mem_singleton.mp he]
  exact .file _

theorem valid_sources : (FileTree.directory sources).Valid := by
  refine .directory _ (by decide) (by decide) ?_
  rw [sources, List.forall_mem_cons, List.forall_mem_singleton]
  exact ⟨.file _, valid_lib⟩

theorem valid_relisted : (FileTree.directory relisted).Valid := by
  refine .directory _ (by decide) (by decide) ?_
  rw [relisted, List.forall_mem_cons, List.forall_mem_singleton]
  exact ⟨valid_lib, .file _⟩

theorem hashing_length (bytes : Bytes) : (hashing.sha256Hex bytes).length = 66 := by
  rw [hashing_lawful.sha256Hex, List.length_cons, List.length_cons, Hex.length_hex,
    List.Vector.toList_length]

end Mock

end Verigov
