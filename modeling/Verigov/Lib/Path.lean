import Mathlib.Data.List.Basic

/-!
# POSIX paths

A path is a text with `/` between its segments. `normalize`, `join` and
`relative` are those of Node's `path` module; `resolve` says which place a path
means, as the names from the root to it, seen from a working directory. There
are no symbolic links, so `..` is the directory before.

`resolve_join` is what a client needs: joining a name to a directory means
walking from the place of the directory along the segments of the name.
-/

abbrev Text := List Char

abbrev Bytes := List UInt8

/-- A place in the file system: the names from the root to it. -/
abbrev Location := List Text

namespace Path

def dot : Text := ['.']
def dots : Text := ['.', '.']

/-- A segment that names an entry of a directory. -/
structure Simple (seg : Text) : Prop where
  ne_nil : seg ≠ []
  ne_dot : seg ≠ dot
  ne_dots : seg ≠ dots
  no_sep : '/' ∉ seg

theorem simple_iff : Simple seg ↔ seg ≠ [] ∧ seg ≠ dot ∧ seg ≠ dots ∧ '/' ∉ seg :=
  ⟨fun h => ⟨h.1, h.2, h.3, h.4⟩, fun h => ⟨h.1, h.2.1, h.2.2.1, h.2.2.2⟩⟩

instance (seg : Text) : Decidable (Simple seg) := decidable_of_iff _ simple_iff.symm

def isAbsolute (p : Text) : Bool := p.head? == some '/'

def hasTrailingSep (p : Text) : Bool := p.getLast? == some '/'

def segments (p : Text) : List Text := p.splitOn '/'

def unsegment (segs : List Text) : Text := ['/'].intercalate segs

-- ---------------------------------------------------------------------------
-- Places
-- ---------------------------------------------------------------------------

def step (l : Location) (seg : Text) : Location :=
  if seg = [] ∨ seg = dot then l else if seg = dots then l.dropLast else l ++ [seg]

def walk (l : Location) (segs : List Text) : Location := segs.foldl step l

def start (cwd : Location) (p : Text) : Location := if isAbsolute p then [] else cwd

/-- The place a path means, seen from `cwd`. -/
def resolve (cwd : Location) (p : Text) : Location := walk (start cwd p) (segments p)

-- ---------------------------------------------------------------------------
-- Node's functions
-- ---------------------------------------------------------------------------

/-- One segment of `normalizeString`; `above` allows climbing out. -/
def normStep (above : Bool) (l : List Text) (seg : Text) : List Text :=
  if seg = [] ∨ seg = dot then l
  else if seg = dots then
    if l = [] ∨ l.getLast? = some dots then if above then l ++ [dots] else l
    else l.dropLast
  else l ++ [seg]

def normFrom (above : Bool) (l : List Text) (segs : List Text) : List Text :=
  segs.foldl (normStep above) l

def normalize (p : Text) : Text :=
  if p = [] then dot
  else
    let segs := normFrom (!isAbsolute p) [] (segments p)
    if segs = [] then
      if isAbsolute p then ['/'] else if hasTrailingSep p then ['.', '/'] else dot
    else
      (if isAbsolute p then ['/'] else []) ++ unsegment segs ++
        (if hasTrailingSep p then ['/'] else [])

/-- `path.join` of two arguments; empty ones are left out. -/
def join (dir name : Text) : Text :=
  if dir = [] then normalize name
  else if name = [] then normalize dir
  else normalize (dir ++ '/' :: name)

def commonLength : Location → Location → Nat
  | x :: xs, y :: ys => if x = y then commonLength xs ys + 1 else 0
  | _, _ => 0

/-- `path.relative`: up from `source` to where the two part, then down. -/
def relative (cwd : Location) (source target : Text) : Text :=
  let a := resolve cwd source
  let b := resolve cwd target
  let n := commonLength a b
  unsegment (List.replicate (a.length - n) dots ++ b.drop n)

-- ---------------------------------------------------------------------------
-- Walking
-- ---------------------------------------------------------------------------

variable {l : Location} {seg : Text} {segs : List Text} {p dir name : Text}

@[simp] theorem walk_nil (l : Location) : walk l [] = l := rfl

@[simp] theorem walk_cons (l : Location) (seg : Text) (segs : List Text) :
    walk l (seg :: segs) = walk (step l seg) segs := rfl

theorem walk_append (l : Location) (xs ys : List Text) :
    walk l (xs ++ ys) = walk (walk l xs) ys := List.foldl_append

@[simp] theorem step_nil (l : Location) : step l [] = l := by simp [step]

@[simp] theorem step_dot (l : Location) : step l dot = l := by simp [step]

@[simp] theorem step_dots (l : Location) : step l dots = l.dropLast := by simp [step, dots, dot]

theorem step_simple (l : Location) (h : Simple seg) : step l seg = l ++ [seg] := by
  simp [step, h.ne_nil, h.ne_dot, h.ne_dots]

theorem walk_simple (l : Location) (h : ∀ seg ∈ segs, Simple seg) : walk l segs = l ++ segs := by
  induction segs generalizing l with
  | nil => simp
  | cons seg segs ih =>
    simp only [List.forall_mem_cons] at h
    rw [walk_cons, step_simple l h.1, ih _ h.2, List.append_assoc]
    rfl

theorem segments_ne_nil (p : Text) : segments p ≠ [] := List.splitOn_ne_nil _ _

theorem segments_simple (h : '/' ∉ seg) : segments seg = [seg] := List.splitOn_eq_singleton h

theorem segments_append (p q : Text) : segments (p ++ '/' :: q) = segments p ++ segments q :=
  List.splitOn_append_cons_self ..

theorem segments_unsegment (h : ∀ seg ∈ segs, '/' ∉ seg) (hne : segs ≠ []) :
    segments (unsegment segs) = segs :=
  List.splitOn_intercalate _ h hne

theorem unsegment_segments (p : Text) : unsegment (segments p) = p := List.intercalate_splitOn _

theorem no_sep_of_mem_segments (h : seg ∈ segments p) : '/' ∉ seg := by
  induction p generalizing seg with
  | nil =>
    simp only [segments, List.splitOn_nil, List.mem_singleton] at h
    simp [h]
  | cons c p ih =>
    rw [segments, List.splitOn_cons_eq_if_modifyHead] at h
    obtain ⟨x, xs, hx⟩ := List.exists_cons_of_ne_nil (segments_ne_nil p)
    unfold segments at hx ih
    rw [hx] at h ih
    split at h
    · rcases List.mem_cons.mp h with rfl | h
      · simp
      · exact ih h
    · rename_i hc
      simp only [List.modifyHead_cons, List.mem_cons] at h
      rcases h with rfl | h
      · have hc' : c ≠ '/' := by simpa using hc
        simp [Ne.symm hc', ih (List.mem_cons_self)]
      · exact ih (List.mem_cons_of_mem _ h)

-- ---------------------------------------------------------------------------
-- Normalising does not change the place
-- ---------------------------------------------------------------------------

def Clean (segs : List Text) : Prop := ∀ seg ∈ segs, seg ≠ [] ∧ seg ≠ dot ∧ '/' ∉ seg

theorem Clean.append (h : Clean segs) (hn : seg ≠ []) (hd : seg ≠ dot) (hs : '/' ∉ seg) :
    Clean (segs ++ [seg]) := by
  intro x hx
  rcases List.mem_append.mp hx with hx | hx
  · exact h x hx
  · rw [List.mem_singleton.mp hx]
    exact ⟨hn, hd, hs⟩

theorem Clean.normStep (above : Bool) (h : Clean segs) (hs : '/' ∉ seg) :
    Clean (normStep above segs seg) := by
  unfold Path.normStep
  split
  · exact h
  · rename_i hne
    rw [not_or] at hne
    split
    · split
      · split
        · exact h.append (by decide) (by decide) (by decide)
        · exact h
      · intro x hx
        exact h x (List.dropLast_subset _ hx)
    · exact h.append hne.1 hne.2 hs

theorem Clean.normFrom (above : Bool) {l : List Text} (h : Clean l)
    (hs : ∀ seg ∈ segs, '/' ∉ seg) : Clean (normFrom above l segs) := by
  induction segs generalizing l with
  | nil => exact h
  | cons seg segs ih =>
    simp only [List.forall_mem_cons] at hs
    exact ih (h.normStep above hs.1) hs.2

theorem clean_normalized (above : Bool) (p : Text) : Clean (normFrom above [] (segments p)) :=
  Clean.normFrom above (by simp [Clean]) fun _ hseg => no_sep_of_mem_segments hseg

theorem walk_normStep (l : Location) {st : List Text} (h : Clean st) (seg : Text) :
    walk l (normStep true st seg) = step (walk l st) seg := by
  unfold normStep
  split
  · rename_i hskip
    simp [step, hskip]
  · rename_i hne
    split
    · rename_i hdots
      subst hdots
      rw [step_dots]
      split
      · rw [if_pos rfl, walk_append]
        simp
      · rename_i hlast
        rw [not_or] at hlast
        obtain ⟨init, x, rfl⟩ := List.eq_nil_or_concat st |>.resolve_left hlast.1
        rw [List.concat_eq_append] at h hlast ⊢
        have hx := h x (by simp)
        have hxs : x ≠ dots := by
          intro heq
          simp [heq] at hlast
        rw [List.dropLast_concat, walk_append, walk_cons, walk_nil, step, if_neg (by simp [hx]),
          if_neg hxs, List.dropLast_concat]
    · rw [walk_append]
      rfl

theorem walk_normFrom (l : Location) {st : List Text} (h : Clean st)
    (hs : ∀ seg ∈ segs, '/' ∉ seg) : walk l (normFrom true st segs) = walk (walk l st) segs := by
  induction segs generalizing st with
  | nil => rfl
  | cons seg segs ih =>
    simp only [List.forall_mem_cons] at hs
    rw [walk_cons, ← walk_normStep l h]
    exact ih (h.normStep true hs.1) hs.2

theorem normFrom_false {st : List Text} (h : dots ∉ st) : normFrom false st segs = walk st segs ∧
    dots ∉ normFrom false st segs := by
  induction segs generalizing st with
  | nil => exact ⟨rfl, h⟩
  | cons seg segs ih =>
    have hstep : normStep false st seg = step st seg := by
      unfold normStep step
      split
      · rfl
      · split
        · split
          · rename_i hlast
            rcases hlast with rfl | hlast
            · rfl
            · exact absurd (List.mem_of_getLast? hlast) h
          · rfl
        · rfl
    have hout : dots ∉ step st seg := by
      unfold step
      split
      · exact h
      · split
        · exact fun hmem => h (List.dropLast_subset _ hmem)
        · rename_i hne
          simp [h, Ne.symm hne]
    obtain ⟨h1, h2⟩ := ih hout
    exact ⟨by rw [walk_cons, ← h1, ← hstep]; rfl, by rw [← hstep] at h2; exact h2⟩

theorem walk_normalized (l : Location) (p : Text) :
    walk l (normFrom true [] (segments p)) = walk l (segments p) :=
  walk_normFrom l (by simp [Clean]) fun _ hseg => no_sep_of_mem_segments hseg

theorem segments_sep (p : Text) : segments ('/' :: p) = [] :: segments p := segments_append [] p

theorem segments_append_sep (p : Text) : segments (p ++ ['/']) = segments p ++ [[]] :=
  segments_append p []

def kept (p : Text) : List Text := normFrom (!isAbsolute p) [] (segments p)

theorem clean_kept (p : Text) : Clean (kept p) := clean_normalized _ p

theorem normalize_eq (hp : p ≠ []) (hk : kept p ≠ []) :
    normalize p = (if isAbsolute p then ['/'] else []) ++ unsegment (kept p) ++
      (if hasTrailingSep p then ['/'] else []) := by
  rw [normalize, if_neg hp]
  exact if_neg hk

theorem normalize_of_kept_nil (hp : p ≠ []) (hk : kept p = []) :
    normalize p = if isAbsolute p then ['/'] else if hasTrailingSep p then ['.', '/'] else dot := by
  rw [normalize, if_neg hp]
  exact if_pos hk

theorem segments_unsegment_kept (hk : kept p ≠ []) : segments (unsegment (kept p)) = kept p :=
  segments_unsegment (fun seg hseg => (clean_kept p seg hseg).2.2) hk

theorem segments_normalize (hp : p ≠ []) (hk : kept p ≠ []) :
    segments (normalize p) = (if isAbsolute p then [[]] else []) ++ kept p ++
      (if hasTrailingSep p then [[]] else []) := by
  rw [normalize_eq hp hk]
  cases isAbsolute p <;> cases hasTrailingSep p <;>
    simp [segments_sep, segments_append_sep, segments_unsegment_kept hk]

theorem unsegment_ne_nil (h : Clean segs) (hne : segs ≠ []) : unsegment segs ≠ [] := by
  intro hnil
  have hseg := segments_unsegment (fun seg hseg => (h seg hseg).2.2) hne
  rw [hnil] at hseg
  exact (h [] (by rw [← hseg]; exact List.mem_singleton.mpr rfl)).1 rfl

theorem head?_unsegment (h : Clean segs) (hne : segs ≠ []) :
    (unsegment segs).head? ≠ some '/' := by
  obtain ⟨x, xs, rfl⟩ := List.exists_cons_of_ne_nil hne
  obtain ⟨hx, -, hsep⟩ := h x (by simp)
  obtain ⟨c, cs, rfl⟩ := List.exists_cons_of_ne_nil hx
  have hc : c ≠ '/' := fun heq => hsep (by simp [heq])
  cases xs <;> simpa [unsegment] using hc

theorem isAbsolute_normalize (p : Text) : isAbsolute (normalize p) = isAbsolute p := by
  by_cases hp : p = []
  · subst hp
    rfl
  · by_cases hk : kept p = []
    · rw [normalize_of_kept_nil hp hk]
      cases h : isAbsolute p
      · cases hasTrailingSep p <;> rfl
      · rfl
    · rw [normalize_eq hp hk]
      cases h : isAbsolute p with
      | true => rfl
      | false =>
        have hhead := head?_unsegment (clean_kept p) hk
        obtain ⟨c, cs, hc⟩ := List.exists_cons_of_ne_nil (unsegment_ne_nil (clean_kept p) hk)
        rw [hc] at hhead ⊢
        simpa [isAbsolute] using hhead

theorem walk_kept (cwd : Location) (p : Text) :
    walk (start cwd p) (kept p) = walk (start cwd p) (segments p) := by
  unfold start kept
  cases isAbsolute p with
  | false => exact walk_normalized cwd p
  | true =>
    obtain ⟨hwalk, hdots⟩ : normFrom false [] (segments p) = walk [] (segments p) ∧
        dots ∉ normFrom false [] (segments p) := normFrom_false (by simp)
    have hsimple : ∀ seg ∈ normFrom false [] (segments p), Simple seg := by
      intro seg hseg
      obtain ⟨h1, h2, h3⟩ := clean_normalized false p seg hseg
      exact ⟨h1, h2, fun heq => hdots (heq ▸ hseg), h3⟩
    simpa [walk_simple [] hsimple] using hwalk

/-- A path means the same place after normalising. -/
theorem resolve_normalize (cwd : Location) (p : Text) :
    resolve cwd (normalize p) = resolve cwd p := by
  have hstart : start cwd (normalize p) = start cwd p := by
    unfold start
    rw [isAbsolute_normalize]
  unfold resolve
  rw [hstart]
  by_cases hp : p = []
  · subst hp
    rfl
  · rw [← walk_kept]
    by_cases hk : kept p = []
    · rw [normalize_of_kept_nil hp hk, hk]
      have hdot : segments dot = [dot] := by decide
      have hdotsep : segments ['.', '/'] = [dot, []] := by decide
      have hsep : segments ['/'] = [[], []] := by decide
      cases isAbsolute p
      · cases hasTrailingSep p <;> simp [hdot, hdotsep]
      · simp [hsep]
    · rw [segments_normalize hp hk, walk_append, walk_append]
      cases isAbsolute p <;> cases hasTrailingSep p <;> simp

/-- Joining a name to a directory means walking on from it. -/
theorem resolve_join (cwd : Location) (hdir : dir ≠ []) (name : Text) :
    resolve cwd (join dir name) = walk (resolve cwd dir) (segments name) := by
  unfold join
  rw [if_neg hdir]
  split
  · rename_i hname
    subst hname
    rw [resolve_normalize]
    simp [segments]
  · have hstart : start cwd (dir ++ '/' :: name) = start cwd dir := by
      obtain ⟨c, cs, rfl⟩ := List.exists_cons_of_ne_nil hdir
      rfl
    rw [resolve_normalize]
    unfold resolve
    rw [hstart, segments_append, walk_append]

theorem resolve_join_simple (cwd : Location) (hdir : dir ≠ []) (h : Simple name) :
    resolve cwd (join dir name) = resolve cwd dir ++ [name] := by
  rw [resolve_join cwd hdir, segments_simple h.no_sep, walk_cons, step_simple _ h]
  rfl

-- ---------------------------------------------------------------------------
-- The text of a joined path
-- ---------------------------------------------------------------------------

theorem mem_unsegment {c : Char} (h : c ∈ unsegment segs) : c = '/' ∨ ∃ seg ∈ segs, c ∈ seg := by
  unfold unsegment at h
  induction segs with
  | nil => simp at h
  | cons seg segs ih =>
    cases segs with
    | nil => exact .inr ⟨seg, by simp, by simpa using h⟩
    | cons seg' segs =>
      rw [List.intercalate_cons_cons] at h
      simp only [List.mem_append, List.mem_singleton] at h
      rcases h with (h | h) | h
      · exact .inr ⟨seg, by simp, h⟩
      · exact .inl h
      · rcases ih h with h | ⟨x, hx, hc⟩
        · exact .inl h
        · exact .inr ⟨x, List.mem_cons_of_mem _ hx, hc⟩

theorem mem_normStep {x : Text} {above : Bool} {l : List Text} (h : x ∈ normStep above l seg) :
    x ∈ l ∨ x = seg ∨ x = dots := by
  unfold normStep at h
  split at h
  · exact .inl h
  · split at h
    · split at h
      · split at h
        · rcases List.mem_append.mp h with h | h
          · exact .inl h
          · exact .inr (.inr (List.mem_singleton.mp h))
        · exact .inl h
      · exact .inl (List.dropLast_subset _ h)
    · rcases List.mem_append.mp h with h | h
      · exact .inl h
      · exact .inr (.inl (List.mem_singleton.mp h))

theorem mem_normFrom {x : Text} {above : Bool} {l : List Text} (h : x ∈ normFrom above l segs) :
    x ∈ l ∨ x ∈ segs ∨ x = dots := by
  induction segs generalizing l with
  | nil => exact .inl h
  | cons seg segs ih =>
    rcases ih h with h | h | h
    · rcases mem_normStep h with h | h | h
      · exact .inl h
      · exact .inr (.inl (by simp [h]))
      · exact .inr (.inr h)
    · exact .inr (.inl (List.mem_cons_of_mem _ h))
    · exact .inr (.inr h)

theorem mem_of_mem_segments {c : Char} (hseg : seg ∈ segments p) (hc : c ∈ seg) : c ∈ p := by
  rw [← unsegment_segments p]
  generalize segments p = segs at hseg
  induction segs with
  | nil => cases hseg
  | cons x segs ih =>
    cases segs with
    | nil => simpa [unsegment, List.mem_singleton.mp hseg] using hc
    | cons y segs =>
      rw [unsegment, List.intercalate_cons_cons]
      rcases List.mem_cons.mp hseg with rfl | hseg
      · simp [hc]
      · have hmem : c ∈ unsegment (y :: segs) := ih hseg
        simp only [unsegment] at hmem
        simp [hmem]

theorem mem_normalize {c : Char} (h : c ∈ normalize p) : c ∈ p ∨ c = '/' ∨ c = '.' := by
  by_cases hp : p = []
  · subst hp
    exact .inr (.inr (by simpa [normalize, dot] using h))
  · by_cases hk : kept p = []
    · rw [normalize_of_kept_nil hp hk] at h
      right
      split at h
      · exact .inl (by simpa using h)
      · split at h
        · simpa [or_comm] using h
        · exact .inr (by simpa [dot] using h)
    · rw [normalize_eq hp hk] at h
      have hsep : ∀ b : Bool, c ∈ (if b then ['/'] else []) → c = '/' := by
        intro b
        cases b <;> simp
      rcases List.mem_append.mp h with h | h
      · rcases List.mem_append.mp h with h | h
        · exact .inr (.inl (hsep _ h))
        · rcases mem_unsegment h with h | ⟨seg, hseg, hc⟩
          · exact .inr (.inl h)
          · rcases mem_normFrom hseg with h | h | rfl
            · cases h
            · exact .inl (mem_of_mem_segments h hc)
            · exact .inr (.inr (by simpa [dots] using hc))
      · exact .inr (.inl (hsep _ h))

theorem mem_join {c : Char} (h : c ∈ join dir name) :
    c ∈ dir ∨ c ∈ name ∨ c = '/' ∨ c = '.' := by
  unfold join at h
  split at h
  · rcases mem_normalize h with h | h
    · exact .inr (.inl h)
    · exact .inr (.inr h)
  · split at h
    · rcases mem_normalize h with h | h
      · exact .inl h
      · exact .inr (.inr h)
    · rcases mem_normalize h with h | h
      · simp only [List.mem_append, List.mem_cons] at h
        rcases h with h | h | h
        · exact .inl h
        · exact .inr (.inr (.inl h))
        · exact .inr (.inl h)
      · exact .inr (.inr h)

theorem normalize_ne_nil (p : Text) : normalize p ≠ [] := by
  by_cases hp : p = []
  · simp [hp, normalize, dot]
  · by_cases hk : kept p = []
    · rw [normalize_of_kept_nil hp hk]
      split
      · simp
      · split <;> simp [dot]
    · rw [normalize_eq hp hk]
      have hne := unsegment_ne_nil (clean_kept p) hk
      simp [hne]

theorem join_ne_nil (dir name : Text) : join dir name ≠ [] := by
  unfold join
  split
  · exact normalize_ne_nil _
  · split <;> exact normalize_ne_nil _

theorem isAbsolute_append (h : dir ≠ []) : isAbsolute (dir ++ q) = isAbsolute dir := by
  obtain ⟨c, cs, rfl⟩ := List.exists_cons_of_ne_nil h
  rfl

theorem kept_append_simple (hdir : dir ≠ []) (h : Simple name) :
    kept (dir ++ '/' :: name) = kept dir ++ [name] := by
  unfold kept
  rw [isAbsolute_append hdir, segments_append, segments_simple h.no_sep, normFrom,
    List.foldl_append]
  show normStep _ (normFrom _ _ _) name = _
  simp [normStep, h.ne_nil, h.ne_dot, h.ne_dots]

theorem hasTrailingSep_append_cons (hname : name ≠ []) :
    hasTrailingSep (dir ++ '/' :: name) = hasTrailingSep name := by
  obtain ⟨c, cs, rfl⟩ := List.exists_cons_of_ne_nil hname
  simp [hasTrailingSep]

theorem Simple.hasTrailingSep (h : Simple name) : hasTrailingSep name = false := by
  have hlast : name.getLast? ≠ some '/' := fun hlast => h.no_sep (List.mem_of_getLast? hlast)
  simpa [Path.hasTrailingSep] using hlast

theorem unsegment_concat (hne : segs ≠ []) (seg : Text) :
    unsegment (segs ++ [seg]) = unsegment segs ++ '/' :: seg := by
  induction segs with
  | nil => exact absurd rfl hne
  | cons x segs ih =>
    cases segs with
    | nil => simp [unsegment]
    | cons y segs =>
      have hrec := ih (by simp)
      simp only [unsegment, List.cons_append] at hrec ⊢
      rw [List.intercalate_cons_cons, List.intercalate_cons_cons, hrec]
      simp

theorem join_simple (hdir : dir ≠ []) : ∃ front, (front = [] ∨ ∃ init, front = init ++ ['/']) ∧
    ∀ name, Simple name → join dir name = front ++ name := by
  have hjoin : ∀ name, Simple name → join dir name =
      (if isAbsolute dir then ['/'] else []) ++ unsegment (kept dir ++ [name]) := by
    intro name h
    have hp : dir ++ '/' :: name ≠ [] := by simp
    have hk : kept (dir ++ '/' :: name) ≠ [] := by simp [kept_append_simple hdir h]
    rw [join, if_neg hdir, if_neg h.ne_nil, normalize_eq hp hk, isAbsolute_append hdir,
      hasTrailingSep_append_cons h.ne_nil, h.hasTrailingSep, kept_append_simple hdir h]
    simp
  by_cases hd : kept dir = []
  · refine ⟨if isAbsolute dir then ['/'] else [], ?_, fun name h => by simp [hjoin name h, hd,
      unsegment]⟩
    split
    · exact .inr ⟨[], rfl⟩
    · exact .inl rfl
  · refine ⟨(if isAbsolute dir then ['/'] else []) ++ unsegment (kept dir) ++ ['/'],
      .inr ⟨_, rfl⟩, fun name h => ?_⟩
    rw [hjoin name h, unsegment_concat hd]
    simp

theorem hasTrailingSep_join (hdir : dir ≠ []) (h : Simple name) :
    hasTrailingSep (join dir name) = false := by
  obtain ⟨front, -, hfront⟩ := join_simple hdir
  rw [hfront name h, ← h.hasTrailingSep]
  unfold Path.hasTrailingSep
  rw [List.getLast?_append_of_ne_nil _ h.ne_nil]

theorem join_unsegment_concat (hdir : dir ≠ []) (hne : segs ≠ []) (h : Simple seg) :
    join dir (unsegment (segs ++ [seg])) = join (dir ++ '/' :: unsegment segs) seg := by
  have hmid : unsegment segs ++ '/' :: seg ≠ [] := by simp
  have hfront : dir ++ '/' :: unsegment segs ≠ [] := by simp
  rw [unsegment_concat hne, join, if_neg hdir, if_neg hmid, join, if_neg hfront, if_neg h.ne_nil]
  simp

theorem hasTrailingSep_join_unsegment (hdir : dir ≠ []) (h : ∀ seg ∈ segs, Simple seg)
    (hne : segs ≠ []) : hasTrailingSep (join dir (unsegment segs)) = false := by
  obtain ⟨init, last, rfl⟩ := List.eq_nil_or_concat segs |>.resolve_left hne
  rw [List.concat_eq_append] at h ⊢
  have hlast := h last (by simp)
  by_cases hinit : init = []
  · subst hinit
    simpa [unsegment] using hasTrailingSep_join hdir hlast
  · rw [join_unsegment_concat hdir hinit hlast]
    exact hasTrailingSep_join (by simp) hlast

theorem resolve_join_unsegment (cwd : Location) (hdir : dir ≠ []) (h : ∀ seg ∈ segs, Simple seg)
    (hne : segs ≠ []) : resolve cwd (join dir (unsegment segs)) = resolve cwd dir ++ segs := by
  rw [resolve_join cwd hdir, segments_unsegment (fun seg hseg => (h seg hseg).no_sep) hne,
    walk_simple _ h]

theorem unsegment_inj {segs' : List Text} (h : ∀ seg ∈ segs, '/' ∉ seg)
    (h' : ∀ seg ∈ segs', '/' ∉ seg) (hne : segs ≠ []) (hne' : segs' ≠ [])
    (heq : unsegment segs = unsegment segs') : segs = segs' := by
  rw [← segments_unsegment h hne, heq, segments_unsegment h' hne']

-- ---------------------------------------------------------------------------
-- Relative paths
-- ---------------------------------------------------------------------------

theorem commonLength_append (l rest : Location) : commonLength l (l ++ rest) = l.length := by
  induction l with
  | nil => cases rest <;> rfl
  | cons x l ih => simp [commonLength, ih]

theorem relative_of_below {cwd rest : Location} {source target : Text}
    (h : resolve cwd target = resolve cwd source ++ rest) :
    relative cwd source target = unsegment rest := by
  simp [relative, h, commonLength_append]

end Path
