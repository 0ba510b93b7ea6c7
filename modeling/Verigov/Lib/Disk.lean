import Verigov.Lib.Path
import Verigov.Lib.StorageMap

/-!
# A disk

Files and directories by their places, and the functions of Node's `fs` module
that read and change them. A disk carries that whatever exists lies in a
directory, so looking a place up is enough to know that it can be reached.

A function that raises an exception gives `none` and leaves the disk as it was.
Paths and the names in them are as long as Linux allows. Permissions, links and
a full disk are left out, and so are the directories that a failed `mkdirSync`
made on its way.
-/

inductive Disk.Node
  | file (bytes : Bytes)
  | directory
  deriving DecidableEq

/-- The root is always there and is not stored. -/
structure Disk where
  nodes : StorageMap Location Disk.Node
  /-- The place before is a directory. -/
  rooted : ∀ l name, (nodes.get (l ++ [name])).isSome → l ≠ [] → nodes.get l = some .directory

namespace Disk

open Path

def empty : Disk := ⟨.empty, by simp⟩

def node (d : Disk) (l : Location) : Option Node :=
  if l = [] then some .directory else d.nodes.get l

variable {d d' : Disk} {l l' cwd : Location} {p q : Text} {bytes : Bytes}

@[simp] theorem node_nil (d : Disk) : d.node [] = some .directory := by simp [node]

theorem node_of_ne_nil (d : Disk) (h : l ≠ []) : d.node l = d.nodes.get l := by simp [node, h]

theorem node_parent (d : Disk) (l : Location) (name : Text) (h : (d.node (l ++ [name])).isSome) :
    d.node l = some .directory := by
  by_cases hl : l = []
  · simp [hl]
  · rw [node_of_ne_nil d (by simp)] at h
    rw [node_of_ne_nil d hl]
    exact d.rooted l name h hl

theorem node_of_prefix (h : d.node l = some .directory) (hm : l' <+: l) :
    d.node l' = some .directory := by
  obtain ⟨names, rfl⟩ := hm
  induction names using List.reverseRecOn with
  | nil => simpa using h
  | append_singleton names name ih =>
    rw [← List.append_assoc] at h
    exact ih (node_parent d _ name (by rw [h]; rfl))

-- ---------------------------------------------------------------------------
-- One place
-- ---------------------------------------------------------------------------

def CanPut (d : Disk) (l : Location) : Prop :=
  l ≠ [] ∧ d.node l.dropLast = some .directory ∧ d.node l ≠ some .directory

instance (d : Disk) (l : Location) : Decidable (d.CanPut l) :=
  inferInstanceAs (Decidable (_ ∧ _ ∧ _))

theorem CanPut.rooted (h : d.CanPut l) (n : Node) (m : Location) (name : Text)
    (hs : ((d.nodes.insert l n).get (m ++ [name])).isSome) (hm : m ≠ []) :
    (d.nodes.insert l n).get m = some .directory := by
  obtain ⟨hne, hparent, hfree⟩ := h
  have hdir : d.node m = some .directory := by
    by_cases heq : m ++ [name] = l
    · rw [← heq, List.dropLast_concat] at hparent
      exact hparent
    · rw [StorageMap.get_insert_ne _ _ heq] at hs
      exact node_parent d m name (by rwa [node_of_ne_nil d (by simp)])
  have hml : m ≠ l := fun heq => hfree (heq ▸ hdir)
  rw [StorageMap.get_insert_ne _ _ hml, ← node_of_ne_nil d hm]
  exact hdir

def put (l : Location) (n : Node) (d : Disk) : Option Disk :=
  if h : d.CanPut l then some ⟨d.nodes.insert l n, h.rooted n⟩ else none

theorem put_isSome {n : Node} : (d.put l n).isSome ↔ d.CanPut l := by
  unfold put
  split <;> simp [*]

theorem node_put {n : Node} (h : d.put l n = some d') (m : Location) :
    d'.node m = if m = l then some n else d.node m := by
  unfold put at h
  split at h
  · rename_i hput
    cases h
    by_cases hm : m = []
    · subst hm
      simp [Ne.symm hput.1]
    · rw [node_of_ne_nil _ hm, StorageMap.get_insert, node_of_ne_nil d hm]
  · cases h

-- ---------------------------------------------------------------------------
-- Directories on the way to a place
-- ---------------------------------------------------------------------------

def makeDirs (l : Location) : List Text → Disk → Option Disk
  | [], d => some d
  | name :: names, d =>
    match d.node (l ++ [name]) with
    | some .directory => makeDirs (l ++ [name]) names d
    | some (.file _) => none
    | none => do
      let d ← d.put (l ++ [name]) .directory
      makeDirs (l ++ [name]) names d

/-- What making directories does: nothing goes, and what is new is a directory on the way. -/
structure Made (d d' : Disk) (l : Location) : Prop where
  keeps : ∀ m n, d.node m = some n → d'.node m = some n
  adds : ∀ m, d.node m = none → (d'.node m).isSome → m <+: l ∧ d'.node m = some .directory
  ends : d'.node l = some .directory

theorem makeDirs_made {names : List Text} (hl : d.node l = some .directory)
    (h : makeDirs l names d = some d') : Made d d' (l ++ names) := by
  induction names generalizing l d with
  | nil =>
    cases h
    refine ⟨fun m n hn => hn, fun m hnone hsome => ?_, by simpa using hl⟩
    rw [hnone] at hsome
    cases hsome
  | cons name names ih =>
    rw [List.append_cons]
    unfold makeDirs at h
    split at h
    · rename_i hdir
      exact ih hdir h
    · cases h
    · rename_i hnone
      simp only [Option.bind_eq_bind, Option.bind_eq_some_iff] at h
      obtain ⟨d1, hput, h⟩ := h
      have hnode := node_put hput
      have hmade := ih (by simp [hnode]) h
      constructor
      · intro m n hn
        apply hmade.keeps
        rw [hnode, if_neg, hn]
        rintro rfl
        simp [hnone] at hn
      · intro m hm hs
        by_cases heq : m = l ++ [name]
        · subst heq
          exact ⟨List.prefix_append .., hmade.keeps _ _ (by simp [hnode])⟩
        · exact hmade.adds m (by simp [hnode, heq, hm]) hs
      · exact hmade.ends

theorem makeDirs_isSome {names : List Text} (hl : d.node l = some .directory) :
    (makeDirs l names d).isSome ↔
      ∀ m bytes, m <+: names → d.node (l ++ m) ≠ some (.file bytes) := by
  induction names generalizing l d with
  | nil =>
    simp only [makeDirs, Option.isSome_some, true_iff, List.prefix_nil]
    rintro m bytes rfl
    simp [hl]
  | cons name names ih =>
    have hsplit : (∀ m bytes, m <+: name :: names → d.node (l ++ m) ≠ some (.file bytes)) ↔
        ∀ m bytes, m <+: names → d.node (l ++ [name] ++ m) ≠ some (.file bytes) := by
      constructor
      · intro h m bytes hm
        have hcons := h (name :: m) bytes (by simpa using hm)
        rwa [List.append_cons] at hcons
      · intro h m bytes hm
        rcases List.prefix_cons_iff.mp hm with rfl | ⟨m', rfl, hm'⟩
        · simp [hl]
        · rw [List.append_cons]
          exact h m' bytes hm'
    rw [hsplit]
    unfold makeDirs
    split
    · rename_i hdir
      exact ih hdir
    · rename_i bytes hfile
      simp only [Option.isSome_none, Bool.false_eq_true, false_iff]
      intro h
      exact h [] bytes (List.nil_prefix) (by simpa using hfile)
    · rename_i hnone
      have hcan : d.CanPut (l ++ [name]) := ⟨by simp, by simpa using hl, by simp [hnone]⟩
      obtain ⟨d1, hput⟩ := Option.isSome_iff_exists.mp (put_isSome (n := .directory) |>.mpr hcan)
      have hnode := node_put hput
      simp only [hput, Option.bind_eq_bind, Option.bind_some]
      rw [ih (by simp [hnode])]
      refine forall₃_congr fun m bytes _ => ?_
      rw [hnode]
      split
      · rename_i heq
        simp [heq, hnone]
      · rfl

-- ---------------------------------------------------------------------------
-- Node's functions
-- ---------------------------------------------------------------------------

/-- Other texts are refused before the disk is looked at. -/
def validPath (p : Text) : Bool := p != [] && !p.contains (Char.ofNat 0)

def byteLength (p : Text) : Nat := (p.map Char.utf8Size).sum

def nameMax : Nat := 255

def pathMax : Nat := 4095

/-- Neither the path nor a name in it is too long in UTF-8 (`ENAMETOOLONG`). -/
def fits (p : Text) : Bool :=
  decide (byteLength p ≤ pathMax) && (segments p).all fun seg => decide (byteLength seg ≤ nameMax)

def usablePath (p : Text) : Bool := validPath p && fits p

def existsSync (cwd : Location) (p : Text) (d : Disk) : Bool :=
  usablePath p && match d.node (resolve cwd p) with
    | some .directory => true
    | some (.file _) => !hasTrailingSep p
    | none => false

def readFileSync (cwd : Location) (p : Text) (d : Disk) : Option Bytes :=
  if usablePath p && !hasTrailingSep p then
    match d.node (resolve cwd p) with
    | some (.file bytes) => some bytes
    | _ => none
  else none

def writeFileSync (cwd : Location) (p : Text) (bytes : Bytes) (d : Disk) : Option Disk :=
  if usablePath p && !hasTrailingSep p then d.put (resolve cwd p) (.file bytes) else none

/-- `fs.mkdirSync` with `recursive`. -/
def mkdirSync (cwd : Location) (p : Text) (d : Disk) : Option Disk :=
  if usablePath p then makeDirs [] (resolve cwd p) d else none

theorem validPath_iff : validPath p = true ↔ p ≠ [] ∧ Char.ofNat 0 ∉ p := by
  simp [validPath]

theorem validPath_join {dir name : Text} (hd : validPath dir) (hn : Char.ofNat 0 ∉ name) :
    validPath (join dir name) := by
  rw [validPath_iff] at hd ⊢
  refine ⟨join_ne_nil _ _, fun hmem => ?_⟩
  rcases mem_join hmem with h | h | h | h
  · exact hd.2 h
  · exact hn h
  · cases h
  · cases h

theorem byteLength_append (p q : Text) : byteLength (p ++ q) = byteLength p + byteLength q := by
  simp [byteLength]

theorem byteLength_ascii (h : ∀ c ∈ p, c.utf8Size = 1) : byteLength p = p.length := by
  rw [byteLength, List.map_congr_left h, List.map_const', List.sum_replicate_nat, mul_one]

theorem usablePath_join_congr {dir name name' : Text} (hdir : dir ≠ []) (h : Simple name)
    (h' : Simple name') (hnul : Char.ofNat 0 ∉ name) (hnul' : Char.ofNat 0 ∉ name')
    (hlen : byteLength name = byteLength name') :
    usablePath (join dir name) ↔ usablePath (join dir name') := by
  obtain ⟨front, hfront, hjoin⟩ := join_simple hdir
  rw [hjoin name h, hjoin name' h']
  simp only [usablePath, fits, Bool.and_eq_true, validPath_iff, decide_eq_true_eq,
    byteLength_append, List.mem_append, hnul, hnul', or_false, hlen]
  refine and_congr (and_congr_left' ?_) (and_congr_right' ?_)
  · simp [h.ne_nil, h'.ne_nil]
  · rcases hfront with rfl | ⟨init, rfl⟩
    · simp [segments_simple h.no_sep, segments_simple h'.no_sep, hlen]
    · simp [segments_append, segments_simple h.no_sep, segments_simple h'.no_sep, hlen]

/-- A hundred replacement characters are too long a name. -/
example : usablePath (List.replicate 100 (Char.ofNat 0xfffd)) = false := by decide

theorem usablePath_of_mkdirSync (h : mkdirSync cwd p d = some d') : usablePath p := by
  unfold mkdirSync at h
  split at h
  · assumption
  · cases h

theorem readFileSync_eq_some : readFileSync cwd p d = some bytes ↔
    usablePath p ∧ hasTrailingSep p = false ∧ d.node (resolve cwd p) = some (.file bytes) := by
  unfold readFileSync
  split
  · rename_i hp
    simp only [Bool.and_eq_true, Bool.not_eq_true'] at hp
    split <;> simp_all
  · rename_i hp
    simp only [Bool.and_eq_true, Bool.not_eq_true', not_and, Bool.not_eq_false] at hp
    simp only [reduceCtorEq, false_iff, not_and]
    intro hv ht
    simp [hp hv] at ht

theorem existsSync_of_read (h : readFileSync cwd p d = some bytes) :
    existsSync cwd p d = true := by
  obtain ⟨hv, ht, hn⟩ := readFileSync_eq_some.mp h
  simp [existsSync, hv, hn, ht]

theorem usable_of_existsSync (h : existsSync cwd p d = true) :
    usablePath p ∧ ∃ n, d.node (resolve cwd p) = some n := by
  unfold existsSync at h
  rw [Bool.and_eq_true] at h
  refine ⟨h.1, Option.isSome_iff_exists.mp ?_⟩
  cases hn : d.node (resolve cwd p) with
  | none => simp [hn] at h
  | some n => rfl

theorem existsSync_iff (cwd : Location) (d : Disk) (hv : usablePath p)
    (ht : hasTrailingSep p = false) :
    existsSync cwd p d = true ↔ (d.node (resolve cwd p)).isSome := by
  unfold existsSync
  rw [hv, Bool.true_and]
  split
  · simp [*]
  · simp [*]
  · simp [*]

def Writable (cwd : Location) (p : Text) (d : Disk) : Prop :=
  usablePath p ∧ hasTrailingSep p = false ∧ d.CanPut (resolve cwd p)

theorem writeFileSync_isSome : (writeFileSync cwd p bytes d).isSome ↔ Writable cwd p d := by
  unfold writeFileSync Writable
  split
  · rename_i hp
    simp only [Bool.and_eq_true, Bool.not_eq_true'] at hp
    simp [put_isSome, hp]
  · rename_i hp
    simp only [Bool.and_eq_true, Bool.not_eq_true', not_and, Bool.not_eq_false] at hp
    simp only [Option.isSome_none, Bool.false_eq_true, false_iff, not_and]
    intro hv ht
    simp [hp hv] at ht

theorem writable_of_writeFileSync (h : writeFileSync cwd p bytes d = some d') :
    Writable cwd p d := writeFileSync_isSome.mp (by rw [h]; rfl)

theorem mkdirSync_isSome : (mkdirSync cwd p d).isSome ↔
    usablePath p ∧ ∀ m bytes, m <+: resolve cwd p → d.node m ≠ some (.file bytes) := by
  unfold mkdirSync
  split
  · rename_i hp
    rw [makeDirs_isSome (node_nil d)]
    simp [hp]
  · simp [*]

theorem node_writeFileSync (h : writeFileSync cwd p bytes d = some d') (l : Location) :
    d'.node l = if l = resolve cwd p then some (.file bytes) else d.node l := by
  unfold writeFileSync at h
  split at h
  · exact node_put h l
  · cases h

theorem mkdirSync_made (h : mkdirSync cwd p d = some d') : Made d d' (resolve cwd p) := by
  unfold mkdirSync at h
  split at h
  · exact makeDirs_made (by simp) h
  · cases h

theorem writable_writeFileSync (h : writeFileSync cwd p bytes d = some d') :
    Writable cwd q d' ↔ Writable cwd q d := by
  obtain ⟨-, -, -, -, hfree⟩ := writable_of_writeFileSync h
  have hdir : ∀ l, d'.node l = some .directory ↔ d.node l = some .directory := by
    intro l
    rw [node_writeFileSync h]
    split
    · rename_i heq
      rw [heq]
      exact iff_of_false (by simp) hfree
    · rfl
  simp only [Writable, CanPut, ne_eq, hdir]

theorem Made.directory_iff (h : Made d d' l) (m : Location) :
    d'.node m = some .directory ↔ d.node m = some .directory ∨ m <+: l := by
  constructor
  · intro hm
    cases hd : d.node m with
    | none => exact .inr (h.adds m hd (by rw [hm]; rfl)).1
    | some n =>
      rw [h.keeps m n hd] at hm
      exact .inl hm
  · rintro (hm | hm)
    · exact h.keeps m _ hm
    · exact node_of_prefix h.ends hm

/-- Whether a file can be written there once the directory `dir` is made. -/
structure WritableOnce (cwd : Location) (dir p : Text) (d : Disk) : Prop where
  usable : usablePath p
  noTrailingSep : hasTrailingSep p = false
  ne_root : resolve cwd p ≠ []
  parent : d.node (resolve cwd p).dropLast = some .directory ∨
    (resolve cwd p).dropLast <+: resolve cwd dir
  free : ¬ (d.node (resolve cwd p) = some .directory ∨ resolve cwd p <+: resolve cwd dir)

theorem writable_mkdirSync {dir : Text} (h : mkdirSync cwd dir d = some d') :
    Writable cwd p d' ↔ WritableOnce cwd dir p d := by
  have hdir := (mkdirSync_made h).directory_iff
  simp only [Writable, CanPut, ne_eq, hdir]
  exact ⟨fun ⟨hv, ht, hne, hp, hf⟩ => ⟨hv, ht, hne, hp, hf⟩,
    fun ⟨hv, ht, hne, hp, hf⟩ => ⟨hv, ht, hne, hp, hf⟩⟩

theorem Made.file_iff (h : Made d d' l') : d'.node l = some (.file bytes) ↔
    d.node l = some (.file bytes) := by
  refine ⟨fun hf => ?_, h.keeps l _⟩
  cases hd : d.node l with
  | none =>
    have hdir := (h.adds l hd (by simp [hf])).2
    simp [hf] at hdir
  | some n =>
    rw [h.keeps l n hd] at hf
    exact hf

end Disk
