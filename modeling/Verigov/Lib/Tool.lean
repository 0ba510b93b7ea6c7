import Verigov.Lib.Disk

/-!
# Programs that work on a disk

A tool takes a disk to a result or an exception, and leaves a disk behind in
both cases: what was written before an exception stays written. The `eq_ok`
lemmas read a run that returned backwards, one call at a time.
-/

inductive Thrown
  /-- An error the tool throws itself, with its message. -/
  | error (message : Text)
  /-- An exception out of a library call. -/
  | raised
  deriving DecidableEq

abbrev Tool (α : Type) := EStateM Thrown Disk α

namespace Tool

variable {α β : Type} {d d' : Disk}

def left : EStateM.Result Thrown Disk α → Disk
  | .ok _ d => d
  | .error _ d => d

def returned : EStateM.Result Thrown Disk α → Option α
  | .ok a _ => some a
  | .error _ _ => none

theorem exists_of_returned {x : EStateM.Result Thrown Disk α} {a : α} (h : returned x = some a) :
    ∃ d', x = .ok a d' := by
  cases x with
  | ok b d' =>
    cases h
    exact ⟨d', rfl⟩
  | error e d' => cases h

def ofOption (o : Option α) : Tool α :=
  match o with
  | some a => pure a
  | none => throw .raised

def ensure (b : Bool) (message : Text) : Tool Unit :=
  if b then pure () else throw (.error message)

def existsSync (cwd : Location) (p : Text) : Tool Bool := do
  return (← get).existsSync cwd p

def readFileSync (cwd : Location) (p : Text) : Tool Bytes := do
  ofOption ((← get).readFileSync cwd p)

/-- A call that changes the disk, or raises an exception and changes nothing. -/
def change (f : Disk → Option Disk) : Tool Unit := do
  set (← ofOption (f (← get)))

def writeFileSync (cwd : Location) (p : Text) (bytes : Bytes) : Tool Unit :=
  change (Disk.writeFileSync cwd p bytes)

def mkdirSync (cwd : Location) (p : Text) : Tool Unit := change (Disk.mkdirSync cwd p)

-- ---------------------------------------------------------------------------
-- Runs
-- ---------------------------------------------------------------------------

theorem bind_run (x : Tool α) (f : α → Tool β) (d : Disk) : (x >>= f) d =
    match x d with
    | .ok a m => f a m
    | .error e m => .error e m := by
  show EStateM.bind x f d = _
  unfold EStateM.bind
  cases x d <;> rfl

theorem pure_run (a : α) (d : Disk) : (pure a : Tool α) d = .ok a d := rfl

theorem throw_run (e : Thrown) (d : Disk) : (throw e : Tool α) d = .error e d := rfl

theorem existsSync_run (cwd : Location) (p : Text) (d : Disk) :
    existsSync cwd p d = .ok (d.existsSync cwd p) d := rfl

theorem change_run (f : Disk → Option Disk) (d : Disk) : change f d =
    match f d with
    | some m => .ok () m
    | none => .error .raised d := by
  show EStateM.bind (ofOption (f d)) set d = _
  unfold EStateM.bind
  cases f d <;> rfl

theorem writeFileSync_run (cwd : Location) (p : Text) (bytes : Bytes) (d : Disk) :
    writeFileSync cwd p bytes d =
      match d.writeFileSync cwd p bytes with
      | some m => .ok () m
      | none => .error .raised d := change_run _ d

theorem mkdirSync_run (cwd : Location) (p : Text) (d : Disk) : mkdirSync cwd p d =
    match d.mkdirSync cwd p with
    | some m => .ok () m
    | none => .error .raised d := change_run _ d

theorem mapM_run {f : α → Tool β} {as : List α} {bs : List β}
    (h : List.Forall₂ (fun a b => f a d = .ok b d) as bs) : as.mapM f d = .ok bs d := by
  induction h with
  | nil => rfl
  | cons ha _ ih =>
    rw [List.mapM_cons, bind_run, ha]
    dsimp only
    rw [bind_run, ih]
    rfl

theorem foldlM_congr {f g : β → α → Tool β} {as : List α}
    (h : ∀ a ∈ as, ∀ b, f b a = g b a) (b : β) : as.foldlM f b = as.foldlM g b := by
  induction as generalizing b with
  | nil => rfl
  | cons a as ih =>
    rw [List.forall_mem_cons] at h
    rw [List.foldlM_cons, List.foldlM_cons, h.1]
    exact bind_congr fun b' => ih h.2 b'

-- ---------------------------------------------------------------------------
-- Tools that only read
-- ---------------------------------------------------------------------------

def Reads (x : Tool α) : Prop := ∀ d, left (x d) = d

theorem Reads.bind {x : Tool α} {f : α → Tool β} (hx : Reads x) (hf : ∀ a, Reads (f a)) :
    Reads (x >>= f) := by
  intro d
  have hd := hx d
  rw [bind_run]
  cases h : x d with
  | ok a m =>
    rw [h] at hd
    subst hd
    exact hf a m
  | error e m =>
    rw [h] at hd
    exact hd

theorem reads_pure (a : α) : Reads (pure a : Tool α) := fun _ => rfl

theorem reads_throw (e : Thrown) : Reads (throw e : Tool α) := fun _ => rfl

theorem reads_ofOption (o : Option α) : Reads (ofOption o) := by
  cases o with
  | none => exact reads_throw _
  | some a => exact reads_pure a

theorem reads_ensure (b : Bool) (message : Text) : Reads (ensure b message) := by
  cases b with
  | false => exact reads_throw _
  | true => exact reads_pure _

theorem reads_existsSync (cwd : Location) (p : Text) : Reads (existsSync cwd p) := fun _ => rfl

theorem reads_readFileSync (cwd : Location) (p : Text) : Reads (readFileSync cwd p) :=
  fun d => reads_ofOption (d.readFileSync cwd p) d

-- ---------------------------------------------------------------------------
-- What tools write
-- ---------------------------------------------------------------------------

/-- Whether it returns or throws, each file it leaves was there before or is good. -/
def Writes (good : Location → Bytes → Prop) (x : Tool α) : Prop :=
  ∀ d l bytes, (left (x d)).node l = some (.file bytes) →
    d.node l = some (.file bytes) ∨ good l bytes

variable {good : Location → Bytes → Prop}

theorem Reads.writes {x : Tool α} (h : Reads x) : Writes good x := fun d _ _ hl =>
  .inl (h d ▸ hl)

theorem Writes.bind {x : Tool α} {f : α → Tool β} (hx : Writes good x)
    (hf : ∀ d a m, x d = .ok a m → Writes good (f a)) : Writes good (x >>= f) := by
  intro d l bytes hl
  have hd := hx d l bytes
  rw [bind_run] at hl
  cases h : x d with
  | ok a m =>
    rw [h] at hd hl
    rcases hf d a m h m l bytes hl with hm | hg
    · exact hd hm
    · exact .inr hg
  | error e m =>
    rw [h] at hd hl
    exact hd hl

theorem writes_mkdirSync (cwd : Location) (p : Text) : Writes good (mkdirSync cwd p) := by
  intro d l bytes hl
  rw [mkdirSync_run] at hl
  split at hl
  · rename_i m hm
    exact .inl ((Disk.mkdirSync_made hm).file_iff.mp hl)
  · exact .inl hl

theorem writes_writeFileSync {cwd : Location} {p : Text} {bytes : Bytes}
    (h : good (Path.resolve cwd p) bytes) : Writes good (writeFileSync cwd p bytes) := by
  intro d l bytes' hl
  rw [writeFileSync_run] at hl
  split at hl
  · rename_i m hm
    change m.node l = _ at hl
    rw [Disk.node_writeFileSync hm] at hl
    split at hl
    · rename_i heq
      obtain rfl : bytes = bytes' := by simpa using hl
      exact .inr (heq ▸ h)
    · exact .inl hl
  · exact .inl hl

theorem writes_foldlM {f : β → α → Tool β} {as : List α}
    (h : ∀ a ∈ as, ∀ b, Writes good (f b a)) (b : β) : Writes good (as.foldlM f b) := by
  induction as generalizing b with
  | nil => exact (reads_pure b).writes
  | cons a as ih =>
    rw [List.forall_mem_cons] at h
    rw [List.foldlM_cons]
    exact (h.1 b).bind fun _ b' _ _ => ih h.2 b'

theorem writes_mapM {f : α → Tool β} {as : List α} (h : ∀ a ∈ as, Writes good (f a)) :
    Writes good (as.mapM f) := by
  induction as with
  | nil => exact (reads_pure _).writes
  | cons a as ih =>
    rw [List.forall_mem_cons] at h
    rw [List.mapM_cons]
    exact h.1.bind fun _ b _ _ => (ih h.2).bind fun _ _ _ _ => (reads_pure _).writes

-- ---------------------------------------------------------------------------
-- Runs that returned
-- ---------------------------------------------------------------------------

theorem bind_eq_ok {x : Tool α} {f : α → Tool β} {b : β} : (x >>= f) d = .ok b d' ↔
    ∃ a m, x d = .ok a m ∧ f a m = .ok b d' := by
  rw [bind_run]
  cases x d with
  | ok a m => simp
  | error e m => simp

@[simp] theorem pure_eq_ok {a b : α} : (pure a : Tool α) d = .ok b d' ↔ a = b ∧ d = d' := by
  simp [pure_run]

@[simp] theorem throw_eq_ok {e : Thrown} {a : α} : (throw e : Tool α) d = .ok a d' ↔ False := by
  show EStateM.Result.error e d = _ ↔ _
  simp

@[simp] theorem ofOption_eq_ok {o : Option α} {a : α} :
    ofOption o d = .ok a d' ↔ o = some a ∧ d = d' := by
  cases o <;> simp [ofOption]

@[simp] theorem existsSync_eq_ok {cwd : Location} {p : Text} {b : Bool} :
    existsSync cwd p d = .ok b d' ↔ d.existsSync cwd p = b ∧ d = d' := by
  simp [existsSync_run]

@[simp] theorem readFileSync_eq_ok {cwd : Location} {p : Text} {bytes : Bytes} :
    readFileSync cwd p d = .ok bytes d' ↔ d.readFileSync cwd p = some bytes ∧ d = d' := by
  show ofOption (d.readFileSync cwd p) d = _ ↔ _
  simp

@[simp] theorem writeFileSync_eq_ok {cwd : Location} {p : Text} {bytes : Bytes} {u : Unit} :
    writeFileSync cwd p bytes d = .ok u d' ↔ d.writeFileSync cwd p bytes = some d' := by
  rw [writeFileSync_run]
  split <;> simp [*]

@[simp] theorem mkdirSync_eq_ok {cwd : Location} {p : Text} {u : Unit} :
    mkdirSync cwd p d = .ok u d' ↔ d.mkdirSync cwd p = some d' := by
  rw [mkdirSync_run]
  split <;> simp [*]

@[simp] theorem ensure_eq_ok {b : Bool} {message : Text} {u : Unit} :
    ensure b message d = .ok u d' ↔ b = true ∧ d = d' := by
  cases b <;> simp [ensure]

-- ---------------------------------------------------------------------------
-- Runs that threw
-- ---------------------------------------------------------------------------

theorem bind_eq_error {x : Tool α} {f : α → Tool β} {e : Thrown} : (x >>= f) d = .error e d' ↔
    x d = .error e d' ∨ ∃ a m, x d = .ok a m ∧ f a m = .error e d' := by
  rw [bind_run]
  cases x d with
  | ok a m => simp
  | error e m => simp

theorem ensure_eq_error {b : Bool} {message : Text} {e : Thrown} :
    ensure b message d = .error e d' ↔ b = false ∧ .error message = e ∧ d = d' := by
  cases b <;> simp [ensure, throw_run, pure_run]

theorem mapM_eq_error {f : α → Tool β} {as : List α} {e : Thrown}
    (h : as.mapM f d = .error e d') : ∃ a ∈ as, ∃ m, f a m = .error e d' := by
  induction as generalizing d with
  | nil => cases h
  | cons a as ih =>
    rw [List.mapM_cons] at h
    rcases bind_eq_error.mp h with ha | ⟨b, m, -, h⟩
    · exact ⟨a, List.mem_cons_self, d, ha⟩
    rcases bind_eq_error.mp h with has | ⟨bs, m, -, h⟩
    · obtain ⟨x, hx, hthrown⟩ := ih has
      exact ⟨x, List.mem_cons_of_mem _ hx, hthrown⟩
    · cases h

end Tool
