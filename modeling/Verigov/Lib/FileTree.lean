import Verigov.Lib.Disk

/-!
# Directory trees

A tree with the entries of each directory in the order in which they are
listed. `files` is what a tree contains whatever that order is: the place of
every file below the root with its bytes. Empty directories leave no trace.
-/

inductive FileTree
  | file (bytes : Bytes)
  | directory (entries : List (Text × FileTree))

namespace FileTree

open Path

mutual

def files : FileTree → List (Location × Bytes)
  | .file bytes => [([], bytes)]
  | .directory entries => filesOf entries

def filesOf : List (Text × FileTree) → List (Location × Bytes)
  | [] => []
  | (name, t) :: entries => (files t).map (fun f => (name :: f.1, f.2)) ++ filesOf entries

end

mutual

def read : FileTree → Location → Option Bytes
  | .file bytes, [] => some bytes
  | .file _, _ :: _ => none
  | .directory _, [] => none
  | .directory entries, name :: l => readIn entries name l

def readIn : List (Text × FileTree) → Text → Location → Option Bytes
  | [], _, _ => none
  | (n, t) :: entries, name, l => if n = name then read t l else readIn entries name l

end

/-- A name that a directory can hold. -/
def FileName (name : Text) : Prop := Simple name ∧ Char.ofNat 0 ∉ name

instance (name : Text) : Decidable (FileName name) := inferInstanceAs (Decidable (_ ∧ _))

/-- No directory has two entries of one name. -/
inductive Valid : FileTree → Prop
  | file (bytes : Bytes) : Valid (.file bytes)
  | directory (entries : List (Text × FileTree)) (distinct : (entries.map Prod.fst).Nodup)
      (names : ∀ e ∈ entries, FileName e.1) (below : ∀ e ∈ entries, Valid e.2) :
      Valid (.directory entries)

variable {t : FileTree} {entries : List (Text × FileTree)} {name : Text} {l : Location}
  {bytes : Bytes}

@[simp] theorem files_file (bytes : Bytes) : files (.file bytes) = [([], bytes)] := rfl

@[simp] theorem files_directory (entries : List (Text × FileTree)) :
    files (.directory entries) = filesOf entries := rfl

@[simp] theorem filesOf_nil : filesOf [] = [] := rfl

@[simp] theorem filesOf_cons (name : Text) (t : FileTree) (entries : List (Text × FileTree)) :
    filesOf ((name, t) :: entries) =
      (files t).map (fun f => (name :: f.1, f.2)) ++ filesOf entries := rfl

theorem filesOf_eq (entries : List (Text × FileTree)) : filesOf entries =
    entries.flatMap fun e => (files e.2).map fun f => (e.1 :: f.1, f.2) := by
  induction entries with
  | nil => rfl
  | cons e entries ih =>
    obtain ⟨name, t⟩ := e
    simp [ih]

theorem mem_filesOf : (l, bytes) ∈ filesOf entries ↔
    ∃ e ∈ entries, ∃ m, l = e.1 :: m ∧ (m, bytes) ∈ files e.2 := by
  simp only [filesOf_eq, List.mem_flatMap, List.mem_map, Prod.mk.injEq, Prod.exists]
  constructor
  · rintro ⟨n, t, he, m, b, hf, rfl, rfl⟩
    exact ⟨n, t, he, m, rfl, hf⟩
  · rintro ⟨n, t, he, m, rfl, hf⟩
    exact ⟨n, t, he, m, bytes, hf, rfl, rfl⟩

theorem Valid.fileName (h : Valid t) (hf : (l, bytes) ∈ files t) : ∀ name ∈ l, FileName name := by
  induction h generalizing l with
  | file b =>
    simp only [files_file, List.mem_singleton, Prod.mk.injEq] at hf
    simp [hf.1]
  | directory entries hdistinct hnames hbelow ih =>
    rw [files_directory, mem_filesOf] at hf
    obtain ⟨e, he, m, rfl, hf⟩ := hf
    rw [List.forall_mem_cons]
    exact ⟨hnames e he, ih e he hf⟩

theorem readIn_of_mem (hdistinct : (entries.map Prod.fst).Nodup) (he : (name, t) ∈ entries)
    (l : Location) : readIn entries name l = read t l := by
  induction entries with
  | nil => cases he
  | cons e entries ih =>
    obtain ⟨n, t'⟩ := e
    simp only [List.map_cons, List.nodup_cons] at hdistinct
    rw [readIn]
    rcases List.mem_cons.mp he with heq | he
    · cases heq
      rw [if_pos rfl]
    · have hne : n ≠ name := by
        rintro rfl
        exact hdistinct.1 (List.mem_map_of_mem he)
      rw [if_neg hne, ih hdistinct.2 he]

theorem Valid.read_of_mem (h : Valid t) (hf : (l, bytes) ∈ files t) : read t l = some bytes := by
  induction h generalizing l with
  | file b =>
    simp only [files_file, List.mem_singleton, Prod.mk.injEq] at hf
    rw [hf.1, hf.2, read]
  | directory entries hdistinct hnames hbelow ih =>
    rw [files_directory, mem_filesOf] at hf
    obtain ⟨e, he, m, rfl, hf⟩ := hf
    rw [read, readIn_of_mem hdistinct he]
    exact ih e he hf

theorem Valid.files_nodup (h : Valid t) : ((files t).map Prod.fst).Nodup := by
  induction h with
  | file b => simp
  | directory entries hdistinct hnames hbelow ih =>
    rw [files_directory]
    clear hnames hbelow
    induction entries with
    | nil => simp
    | cons e entries ihe =>
      obtain ⟨n, t⟩ := e
      simp only [List.map_cons, List.nodup_cons] at hdistinct
      rw [List.forall_mem_cons] at ih
      rw [filesOf_cons, List.map_append, List.nodup_append, List.map_map]
      refine ⟨?_, ihe hdistinct.2 ih.2, ?_⟩
      · have hcons : Function.Injective (List.cons n) := fun _ _ h => List.tail_eq_of_cons_eq h
        have hmap := ih.1.map hcons
        rwa [List.map_map] at hmap
      · intro x hx y hy heq
        obtain ⟨f, -, rfl⟩ := List.mem_map.mp hx
        obtain ⟨⟨l, b⟩, hf, rfl⟩ := List.mem_map.mp hy
        obtain ⟨e, he, m, hl, -⟩ := mem_filesOf.mp hf
        rw [hl] at heq
        cases heq
        exact hdistinct.1 (List.mem_map_of_mem he)

end FileTree
