import Verigov.Lib.Path

/-!
# What a name adds to a directory

Taken by itself a text has a normal form, `net`: first the `..` that climb out,
then the names that lead down again. A directory and that normal form decide
where the two joined lead (`directChild_join_iff`), whatever the directory.
-/

namespace Path

variable {cwd l : Location} {segs : List Text} {seg p dir suf : Text}

def DirectChild (cwd : Location) (dir p : Text) : Prop :=
  ∃ seg, Simple seg ∧ resolve cwd p = resolve cwd dir ++ [seg]

theorem directChild_iff : DirectChild cwd dir p ↔ ∃ h : resolve cwd p ≠ [],
    (resolve cwd p).dropLast = resolve cwd dir ∧ Simple ((resolve cwd p).getLast h) := by
  constructor
  · rintro ⟨seg, hseg, heq⟩
    refine ⟨by simp [heq], by simp [heq], ?_⟩
    simpa [heq] using hseg
  · rintro ⟨h, hparent, hlast⟩
    exact ⟨_, hlast, by rw [← hparent, List.dropLast_append_getLast]⟩

instance : Decidable (DirectChild cwd dir p) := decidable_of_iff _ directChild_iff.symm

def net (p : Text) : List Text := normFrom true [] (segments p)

/-- By itself the text is one name behind as many `..` as it has names of `l`
to take back, and it does not end in a separator. -/
def StaysIn (l : Location) (p : Text) : Prop :=
  hasTrailingSep p = false ∧ ∃ k seg, Simple seg ∧
    net p = List.replicate k dots ++ (l.drop (l.length - k) ++ [seg])

-- ---------------------------------------------------------------------------
-- The normal form
-- ---------------------------------------------------------------------------

/-- First `..`, then names. -/
def NormalForm (segs : List Text) : Prop :=
  ∃ k rest, segs = List.replicate k dots ++ rest ∧ ∀ seg ∈ rest, Simple seg

theorem getLast?_replicate_dots (k : Nat) (h : k ≠ 0) :
    (List.replicate k dots).getLast? = some dots := by
  simp [List.getLast?_replicate, h]

theorem NormalForm.normStep (h : NormalForm segs) (hs : '/' ∉ seg) :
    NormalForm (normStep true segs seg) := by
  obtain ⟨k, rest, rfl, hrest⟩ := h
  unfold Path.normStep
  split
  · exact ⟨k, rest, rfl, hrest⟩
  · rename_i hskip
    rw [not_or] at hskip
    split
    · rename_i hdots
      split
      · rename_i hlast
        rw [if_pos rfl]
        -- A name at the end would be neither the start nor `..`.
        have hnil : rest = [] := by
          by_contra hne
          obtain ⟨init, x, rfl⟩ := List.eq_nil_or_concat rest |>.resolve_left hne
          rw [List.concat_eq_append] at hlast hrest
          have hx := (hrest x (by simp)).ne_dots
          simp [hx] at hlast
        subst hnil
        refine ⟨k + 1, [], ?_, by simp⟩
        simp [List.replicate_succ']
      · rename_i hlast
        rw [not_or] at hlast
        by_cases hne : rest = []
        · subst hne
          by_cases hk : k = 0
          · simp [hk] at hlast
          · simp [getLast?_replicate_dots k hk] at hlast
        · refine ⟨k, rest.dropLast, by rw [List.dropLast_append_of_ne_nil hne], fun seg hseg => ?_⟩
          exact hrest seg (List.dropLast_subset _ hseg)
    · rename_i hdots
      refine ⟨k, rest ++ [seg], by rw [List.append_assoc], fun x hx => ?_⟩
      rcases List.mem_append.mp hx with hx | hx
      · exact hrest x hx
      · rw [List.mem_singleton.mp hx]
        exact ⟨hskip.1, hskip.2, hdots, hs⟩

theorem NormalForm.normFrom {st : List Text} (h : NormalForm st) (hs : ∀ seg ∈ segs, '/' ∉ seg) :
    NormalForm (normFrom true st segs) := by
  induction segs generalizing st with
  | nil => exact h
  | cons seg segs ih =>
    rw [List.forall_mem_cons] at hs
    exact ih (h.normStep hs.1) hs.2

theorem normalForm_net (p : Text) : NormalForm (net p) :=
  NormalForm.normFrom ⟨0, [], rfl, by simp⟩ fun _ hseg => no_sep_of_mem_segments hseg

theorem normFrom_append (above : Bool) (st xs ys : List Text) :
    normFrom above st (xs ++ ys) = normFrom above (normFrom above st xs) ys := List.foldl_append

theorem normStep_simple (above : Bool) (l : List Text) (h : Simple seg) :
    normStep above l seg = l ++ [seg] := by
  simp [normStep, h.ne_nil, h.ne_dot, h.ne_dots]

theorem normStep_dots_concat (above : Bool) (l : List Text) (h : seg ≠ dots) :
    normStep above (l ++ [seg]) dots = l := by
  have hdots : ¬ (dots = [] ∨ dots = dot) := by decide
  simp [normStep, hdots, h]

theorem normFrom_normStep (above : Bool) (st : List Text) {acc : List Text} (h : Clean acc)
    (seg : Text) :
    normFrom above st (normStep true acc seg) = normStep above (normFrom above st acc) seg := by
  rw [normStep]
  split
  · rename_i hskip
    simp [normStep, hskip]
  · split
    · rename_i hdots
      subst hdots
      split
      · rw [if_pos rfl, normFrom_append]
        rfl
      · rename_i hlast
        rw [not_or] at hlast
        obtain ⟨init, x, rfl⟩ := List.eq_nil_or_concat acc |>.resolve_left hlast.1
        rw [List.concat_eq_append] at h hlast ⊢
        have hx : x ≠ dots := by
          rintro rfl
          simp at hlast
        obtain ⟨h1, h2, h3⟩ := h x (by simp)
        rw [List.dropLast_concat, normFrom_append]
        show _ = normStep above (normStep above _ x) dots
        rw [normStep_simple above _ ⟨h1, h2, hx, h3⟩, normStep_dots_concat above _ hx]
    · rw [normFrom_append]
      rfl

theorem normFrom_normFrom (above : Bool) (st : List Text) {acc : List Text} (h : Clean acc)
    (hs : ∀ seg ∈ segs, '/' ∉ seg) :
    normFrom above st (normFrom true acc segs) = normFrom above (normFrom above st acc) segs := by
  induction segs generalizing acc with
  | nil => rfl
  | cons seg segs ih =>
    rw [List.forall_mem_cons] at hs
    have hrec := ih (h.normStep true hs.1) hs.2
    rw [normFrom_normStep above st h] at hrec
    exact hrec

theorem normFrom_net (above : Bool) (st : List Text) (p : Text) :
    normFrom above st (net p) = normFrom above st (segments p) :=
  normFrom_normFrom above st (by simp [Clean]) fun _ hseg => no_sep_of_mem_segments hseg

theorem normFrom_simple (above : Bool) (st : List Text) (h : ∀ seg ∈ segs, Simple seg) :
    normFrom above st segs = st ++ segs := by
  induction segs generalizing st with
  | nil => simp [normFrom]
  | cons seg segs ih =>
    rw [List.forall_mem_cons] at h
    show normFrom above (normStep above st seg) segs = _
    rw [normStep_simple above st h.1, ih _ h.2, List.append_assoc]
    rfl

-- ---------------------------------------------------------------------------
-- Where the normal form leads
-- ---------------------------------------------------------------------------

theorem walk_replicate_dots (l : Location) (k : Nat) :
    walk l (List.replicate k dots) = l.take (l.length - k) := by
  induction k generalizing l with
  | zero => simp
  | succ k ih =>
    rw [List.replicate_succ, walk_cons, step_dots, ih, List.length_dropLast, List.dropLast_eq_take,
      List.take_take]
    congr 1
    omega

theorem walk_net (l : Location) {k : Nat} {rest : List Text}
    (hnet : net p = List.replicate k dots ++ rest) (hrest : ∀ seg ∈ rest, Simple seg) :
    walk l (segments p) = l.take (l.length - k) ++ rest := by
  rw [← walk_normalized, show normFrom true [] (segments p) = net p from rfl, hnet, walk_append,
    walk_replicate_dots, walk_simple _ hrest]

theorem step_simple_all (hl : ∀ seg ∈ l, Simple seg) (hs : '/' ∉ seg) :
    ∀ x ∈ step l seg, Simple x := by
  unfold step
  split
  · exact hl
  · rename_i hskip
    rw [not_or] at hskip
    split
    · exact fun x hx => hl x (List.dropLast_subset _ hx)
    · rename_i hdots
      intro x hx
      rcases List.mem_append.mp hx with hx | hx
      · exact hl x hx
      · rw [List.mem_singleton.mp hx]
        exact ⟨hskip.1, hskip.2, hdots, hs⟩

theorem resolve_simple (hcwd : ∀ seg ∈ cwd, Simple seg) (p : Text) :
    ∀ seg ∈ resolve cwd p, Simple seg := by
  have hstart : ∀ seg ∈ start cwd p, Simple seg := by
    unfold start
    split
    · simp
    · exact hcwd
  have hseps : ∀ seg ∈ segments p, '/' ∉ seg := fun _ hseg => no_sep_of_mem_segments hseg
  unfold resolve
  generalize start cwd p = l at hstart
  generalize segments p = segs at hseps
  induction segs generalizing l with
  | nil => exact hstart
  | cons seg segs ih =>
    rw [List.forall_mem_cons] at hseps
    exact ih (step l seg) (step_simple_all hstart hseps.1) hseps.2

-- ---------------------------------------------------------------------------
-- A suffix
-- ---------------------------------------------------------------------------

theorem segments_append_suffix (p : Text) (hsuf : '/' ∉ suf) : ∃ init last,
    segments p = init ++ [last] ∧ segments (p ++ suf) = init ++ [last ++ suf] := by
  obtain ⟨init, last, hseg⟩ := List.eq_nil_or_concat (segments p) |>.resolve_left
    (segments_ne_nil p)
  rw [List.concat_eq_append] at hseg
  have hlast : '/' ∉ last ++ suf := by
    have hno : '/' ∉ last := no_sep_of_mem_segments (p := p) (by simp [hseg])
    simp [hno, hsuf]
  have hp := unsegment_segments p
  rw [hseg] at hp
  refine ⟨init, last, hseg, ?_⟩
  by_cases hinit : init = []
  · subst hinit
    have hp' : last = p := by simpa [unsegment] using hp
    subst hp'
    exact segments_simple hlast
  · rw [unsegment_concat hinit] at hp
    have hseps : ∀ seg ∈ init, '/' ∉ seg := fun seg hmem =>
      no_sep_of_mem_segments (p := p) (by simp [hseg, hmem])
    rw [← hp, List.append_assoc, List.cons_append, segments_append, segments_simple hlast,
      segments_unsegment hseps hinit]

theorem simple_append_suffix {last : Text} (hlast : '/' ∉ last) (hsuf : '/' ∉ suf)
    (hlen : 2 < suf.length) : Simple (last ++ suf) := by
  have hlong : 2 < (last ++ suf).length := by
    rw [List.length_append]
    omega
  constructor
  · intro h
    simp [h] at hlong
  · intro h
    simp [h, dot] at hlong
  · intro h
    simp [h, dots] at hlong
  · simp [hlast, hsuf]

theorem resolve_append_suffix (cwd : Location) (hp : p ≠ []) (hsuf : '/' ∉ suf)
    (hlen : 2 < suf.length) : ∃ init last, segments p = init ++ [last] ∧
      resolve cwd (p ++ suf) = walk (start cwd p) init ++ [last ++ suf] := by
  obtain ⟨init, last, hseg, hseg'⟩ := segments_append_suffix p hsuf
  refine ⟨init, last, hseg, ?_⟩
  have hlast : '/' ∉ last := no_sep_of_mem_segments (p := p) (by simp [hseg])
  unfold resolve start
  rw [isAbsolute_append hp, hseg', walk_append, walk_cons,
    step_simple _ (simple_append_suffix hlast hsuf hlen)]
  rfl

theorem resolve_append_suffix_ne (cwd : Location) (hp : p ≠ []) (hsuf : '/' ∉ suf)
    (hlen : 2 < suf.length) : resolve cwd (p ++ suf) ≠ resolve cwd p := by
  obtain ⟨init, last, hseg, hsuffix⟩ := resolve_append_suffix cwd hp hsuf hlen
  rw [hsuffix, resolve, hseg, walk_append]
  generalize walk (start cwd p) init = l
  intro heq
  rw [walk_cons, walk_nil, step] at heq
  split at heq
  · simp at heq
  · split at heq
    · have hcount := congrArg List.length heq
      simp only [List.length_append, List.length_dropLast, List.length_singleton] at hcount
      omega
    · simp only [List.append_cancel_left_eq, List.cons.injEq, and_true,
        List.append_right_eq_self] at heq
      simp [heq] at hlen

-- ---------------------------------------------------------------------------
-- Direct children
-- ---------------------------------------------------------------------------

theorem kept_join (hdir : dir ≠ []) (p : Text) : kept (dir ++ '/' :: p) =
    normFrom (!isAbsolute dir) (kept dir) (net p) := by
  rw [normFrom_net, kept, isAbsolute_append hdir, segments_append, normFrom_append]
  rfl

theorem segments_join (hdir : dir ≠ []) (hp : p ≠ []) {k : Nat} {rest : List Text}
    (hnet : net p = List.replicate k dots ++ rest) (hrest : ∀ seg ∈ rest, Simple seg)
    (hne : rest ≠ []) : ∃ front, segments (join dir p) =
      front ++ rest ++ if hasTrailingSep p then [[]] else [] := by
  have hq : dir ++ '/' :: p ≠ [] := by simp
  have hkept : kept (dir ++ '/' :: p) =
      normFrom (!isAbsolute dir) (kept dir) (List.replicate k dots) ++ rest := by
    rw [kept_join hdir, hnet, normFrom_append, normFrom_simple _ _ hrest]
  have hk : kept (dir ++ '/' :: p) ≠ [] := by simp [hkept, hne]
  rw [join, if_neg hdir, if_neg hp, segments_normalize hq hk, hkept, hasTrailingSep_append_cons hp]
  exact ⟨(if isAbsolute (dir ++ '/' :: p) then [[]] else []) ++
    normFrom (!isAbsolute dir) (kept dir) (List.replicate k dots), by simp only [List.append_assoc]⟩

/-- A text and the text with a suffix both lead into a directory itself iff the
text does not end in a separator and takes back, name by name, whatever it
climbs out of the directory before it adds one name. -/
theorem directChild_join_iff (hcwd : ∀ seg ∈ cwd, Simple seg) (hdir : dir ≠ []) (hp : p ≠ [])
    (hsuf : '/' ∉ suf) (hlen : 2 < suf.length) :
    (DirectChild cwd dir (join dir p) ∧ DirectChild cwd dir (join dir p ++ suf)) ↔
      StaysIn (resolve cwd dir) p := by
  obtain ⟨init, last, hseg, hsuffix⟩ :=
    resolve_append_suffix cwd (join_ne_nil dir p) hsuf hlen
  have hplace : resolve cwd (join dir p) = step (walk (start cwd (join dir p)) init) last := by
    rw [resolve, hseg, walk_append]
    rfl
  constructor
  · rintro ⟨⟨x, hx, h1⟩, ⟨y, -, h2⟩⟩
    obtain ⟨k, rest, hnet, hrest⟩ := normalForm_net p
    have hlead : rest = (resolve cwd dir).drop ((resolve cwd dir).length - k) ++ [x] := by
      rw [resolve_join cwd hdir, walk_net _ hnet hrest] at h1
      have hsplit := List.take_append_drop ((resolve cwd dir).length - k) (resolve cwd dir)
      refine List.append_cancel_left (h1.trans ?_)
      rw [← List.append_assoc, hsplit]
    refine ⟨?_, k, x, hx, by rw [hnet, hlead]⟩
    -- Behind a separator the suffix is a name of its own, one place further down.
    cases hsep : hasTrailingSep p with
    | false => rfl
    | true =>
      obtain ⟨front, hfront⟩ := segments_join hdir hp hnet hrest (by simp [hlead])
      rw [hsep, if_pos rfl, hseg] at hfront
      obtain ⟨-, hlast⟩ := List.append_inj' hfront rfl
      cases hlast
      rw [step_nil, h1] at hplace
      rw [hsuffix, ← hplace] at h2
      have hcount := congrArg List.length h2
      simp at hcount
  · rintro ⟨hsep, k, x, hx, hnet⟩
    have hrest : ∀ seg ∈ (resolve cwd dir).drop ((resolve cwd dir).length - k) ++ [x],
        Simple seg := by
      intro seg hmem
      rcases List.mem_append.mp hmem with hmem | hmem
      · exact resolve_simple hcwd dir seg (List.mem_of_mem_drop hmem)
      · rw [List.mem_singleton.mp hmem]
        exact hx
    have h1 : resolve cwd (join dir p) = resolve cwd dir ++ [x] := by
      rw [resolve_join cwd hdir, walk_net _ hnet hrest, ← List.append_assoc, List.take_append_drop]
    refine ⟨⟨x, hx, h1⟩, ?_⟩
    obtain ⟨front, hfront⟩ := segments_join hdir hp hnet hrest (by simp)
    rw [hsep, if_neg (by simp), List.append_nil, ← List.append_assoc, hseg] at hfront
    obtain ⟨-, hlast⟩ := List.append_inj' hfront rfl
    cases hlast
    rw [step_simple _ hx, h1] at hplace
    rw [← List.append_cancel_right hplace] at hsuffix
    exact ⟨_, simple_append_suffix hx.no_sep hsuf hlen, hsuffix⟩

end Path
