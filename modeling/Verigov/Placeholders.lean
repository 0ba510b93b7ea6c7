import Verigov.Lib.Occurrence
import Verigov.Rebuild

/-!
# No placeholder is left

`compile` puts the version and the commit in the place of their placeholders, one
after the other, and never looks at what it has put in. That no placeholder is left
depends on the two arguments: one that is all made of letters of a placeholder can
close up with the text around it.
-/

namespace Verigov

open Path Occurrence

variable {pattern replacement q t : Text} {site : Site} {args : BuildArgs}

-- ---------------------------------------------------------------------------
-- What is between the matches
-- ---------------------------------------------------------------------------

theorem substitute_of_notMem (h : '$' ∉ replacement) (before matched after : Text) :
    substitute before matched after replacement = replacement := by
  induction replacement with
  | nil => rfl
  | cons c t ih =>
    rw [List.mem_cons, not_or] at h
    cases t with
    | nil => simp [substitute]
    | cons d t =>
      rw [substitute, ih h.2]
      · exact fun hnil => nomatch hnil
      · rintro d' t' hc -
        exact h.1 hc.symm

theorem replaceFrom_inMatch (pattern replacement : Text) (n : Nat) (before t : Text) :
    replaceFrom pattern replacement n before t =
      replaceFrom pattern replacement 0 (before ++ t.take n) (t.drop n) := by
  induction n generalizing before t with
  | zero => simp
  | succ n ih =>
    cases t with
    | nil => simp [replaceFrom]
    | cons c t => simp [replaceFrom, ih]

theorem replaceFrom_joined (hpattern : pattern ≠ []) (hplain : '$' ∉ replacement)
    (before t : Text) : ∃ part parts, t = joined pattern part parts ∧
      replaceFrom pattern replacement 0 before t = joined replacement part parts ∧
        ∀ x ∈ part :: parts, Free pattern x := by
  -- By induction on the length: a match takes the whole pattern off the text.
  induction hn : t.length using Nat.strongRecOn generalizing before t with
  | ind n ih =>
    subst hn
    have hnil : Free pattern [] := fun h => hpattern (List.infix_nil.mp h)
    cases t with
    | nil => exact ⟨[], [], rfl, by simp [replaceFrom, joined], by simpa using hnil⟩
    | cons c t =>
      have hpos : 0 < pattern.length := List.length_pos_of_ne_nil hpattern
      by_cases hmatch : pattern.isPrefixOf (c :: t)
      · obtain ⟨rest, hrest⟩ := List.isPrefixOf_iff_prefix.mp hmatch
        have hdrop : t.drop (pattern.length - 1) = rest := by
          have hall : (c :: t).drop pattern.length = rest := by rw [← hrest, List.drop_left]
          rwa [← Nat.sub_add_cancel hpos, List.drop_succ_cons] at hall
        have hlt : rest.length < (c :: t).length := by
          rw [← hrest, List.length_append]
          omega
        obtain ⟨part, parts, hjoined, hreplaced, hfree⟩ := ih _ hlt
          (before ++ [c] ++ t.take (pattern.length - 1)) rest rfl
        refine ⟨[], part :: parts, ?_, ?_, List.forall_mem_cons.mpr ⟨hnil, hfree⟩⟩
        · rw [← hrest, hjoined]
          simp [joined]
        · rw [replaceFrom, if_pos hmatch, substitute_of_notMem hplain, replaceFrom_inMatch, hdrop,
            hreplaced]
          simp [joined]
      · obtain ⟨part, parts, hjoined, hreplaced, hfree⟩ := ih _ (Nat.lt_succ_self _)
          (before ++ [c]) t rfl
        rw [List.forall_mem_cons] at hfree
        refine ⟨c :: part, parts, ?_, ?_, List.forall_mem_cons.mpr ⟨fun hinfix => ?_, hfree.2⟩⟩
        · rw [hjoined]
          rfl
        · rw [replaceFrom, if_neg hmatch, hreplaced]
          rfl
        · rcases List.infix_cons_iff.mp hinfix with hstart | hinfix
          · refine hmatch (List.isPrefixOf_iff_prefix.mpr (hstart.trans ?_))
            rw [hjoined]
            exact List.prefix_append (c :: part) _
          · exact hfree.1 hinfix

theorem replaceAll_joined (hpattern : pattern ≠ []) (hplain : '$' ∉ replacement) (t : Text) :
    ∃ part parts, t = joined pattern part parts ∧
      replaceAll pattern replacement t = joined replacement part parts ∧
        ∀ x ∈ part :: parts, Free pattern x :=
  replaceFrom_joined hpattern hplain [] t

/-- What is replaced is gone, if the replacement does not bring it back. -/
theorem free_replaceAll (hpattern : pattern ≠ []) (hplain : '$' ∉ replacement)
    (h : Inert pattern replacement) (t : Text) :
    Free pattern (replaceAll pattern replacement t) := by
  obtain ⟨part, parts, -, hreplaced, hfree⟩ := replaceAll_joined hpattern hplain t
  rw [hreplaced]
  exact h.free_joined hfree

theorem free_replaceAll_other (hq : Free q t) (hpattern : pattern ≠ [])
    (hplain : '$' ∉ replacement) (h : Inert q replacement) :
    Free q (replaceAll pattern replacement t) := by
  obtain ⟨part, parts, rfl, hreplaced, -⟩ := replaceAll_joined hpattern hplain t
  rw [hreplaced]
  exact h.free_joined fun x hx => hq.of_infix (infix_joined pattern hx)

-- ---------------------------------------------------------------------------
-- The build
-- ---------------------------------------------------------------------------

def placeholders : List Text := ["__VERSION__".toList, "__COMMIT__".toList]

theorem placeholder_facts (h : q ∈ placeholders) : '_' ∈ q ∧ '\n' ∉ q ∧ ' ' ∉ q ∧ '=' ∉ q ∧
    q.head? = some '_' ∧ q.getLast? = some '_' := by
  simp only [placeholders, List.mem_cons, List.not_mem_nil, or_false] at h
  rcases h with rfl | rfl <;> decide

/-- The arguments have neither the letter that the placeholders begin and end with nor
the one with a meaning in replacements, but some that are in no placeholder they
may come next to. -/
structure BuildArgs.Plain (args : BuildArgs) : Prop where
  version : '$' ∉ args.version ∧ '_' ∉ args.version
  commit : '$' ∉ args.commit ∧ '_' ∉ args.commit
  version_foreign : ∃ c ∈ args.version, c ∉ "__VERSION__".toList
  commit_foreign : ∀ q ∈ placeholders, ∃ c ∈ args.commit, c ∉ q

theorem inert_of_notMem (hq : q ∈ placeholders) (h : '_' ∉ replacement)
    (hforeign : ∃ c ∈ replacement, c ∉ q) : Inert q replacement := by
  obtain ⟨-, -, -, -, hhead, hlast⟩ := placeholder_facts hq
  refine ⟨?_, ?_, hforeign⟩
  · rw [hhead]
    rintro c ⟨⟩
    exact h
  · rw [hlast]
    rintro c ⟨⟩
    exact h

theorem free_of_plain (hq : q ∈ placeholders) (h : '_' ∉ t) : Free q t :=
  free_of_mem (placeholder_facts hq).1 h

theorem buildBody_free (h : args.Plain) (hq : q ∈ placeholders) (content : Bytes) :
    Free q (buildBody args.version args.commit content) := by
  have hV : "__VERSION__".toList ∈ placeholders := by simp [placeholders]
  have hcommit : Inert q args.commit := inert_of_notMem hq h.commit.2 (h.commit_foreign q hq)
  unfold buildBody
  rw [placeholders, List.mem_pair] at hq
  rcases hq with rfl | rfl
  · refine free_replaceAll_other ?_ (by decide) h.commit.1 hcommit
    exact free_replaceAll (by decide) h.version.1
      (inert_of_notMem hV h.version.2 h.version_foreign) _
  · exact free_replaceAll (by decide) h.commit.1 hcommit _

theorem source_free : ∀ q ∈ placeholders, Free q "# source_commit".toList := by
  decide +kernel

theorem buildHeader_free (h : args.Plain) (hq : q ∈ placeholders) :
    Free q (buildHeader args.version args.commit) := by
  obtain ⟨-, hline, -, hequals, -, -⟩ := placeholder_facts hq
  have hsource : "# source_commit=".toList = "# source_commit".toList ++ ['='] := by
    decide +kernel
  have hstart : '_' ∉ "#!/bin/sh\n# ".toList ++ PROJECT := by decide +kernel
  have hbuilt : '_' ∉ "# built by the VeriGov hermetic toy builder\nset -e\n".toList := by
    decide +kernel
  have hfree := source_free q hq
  unfold buildHeader
  rw [hsource]
  generalize "#!/bin/sh\n# ".toList ++ PROJECT = start at hstart ⊢
  generalize "# source_commit".toList = source at hfree ⊢
  generalize "# built by the VeriGov hermetic toy builder\nset -e\n".toList = built at hbuilt ⊢
  have hsplit : start ++ ' ' :: args.version ++ '\n' :: (source ++ ['=']) ++ args.commit ++
      '\n' :: built =
        (start ++ ' ' :: args.version) ++
          '\n' :: ((source ++ '=' :: args.commit) ++ '\n' :: built) := by
    simp
  rw [hsplit, free_append_cons hline, free_append_cons hline, free_append_cons hequals]
  refine ⟨free_of_plain hq ?_, ⟨hfree, free_of_plain hq h.commit.2⟩, free_of_plain hq hbuilt⟩
  simp [hstart, h.version.2]

theorem buildSection_free (h : args.Plain) (hq : q ∈ placeholders) (hrel : Free q rel)
    (content : Bytes) : Free q (buildSection args.version args.commit rel content) := by
  obtain ⟨-, hline, hblank, -, -, -⟩ := placeholder_facts hq
  have hopen : "\n# --- ".toList = '\n' :: ("# ---".toList ++ [' ']) := by decide +kernel
  have hclose : " ---\n".toList = ' ' :: ("---".toList ++ ['\n']) := by decide +kernel
  have hbefore : '_' ∉ "# ---".toList := by decide +kernel
  have hafter : '_' ∉ "---".toList := by decide +kernel
  have hbody := buildBody_free h hq content
  unfold buildSection
  rw [hopen, hclose]
  generalize "# ---".toList = before at hbefore ⊢
  generalize "---".toList = after at hafter ⊢
  generalize buildBody args.version args.commit content = body at hbody ⊢
  have hsplit : '\n' :: (before ++ [' ']) ++ rel ++ ' ' :: (after ++ ['\n']) ++ body =
      [] ++ '\n' :: ((before ++ ' ' :: (rel ++ ' ' :: after)) ++ '\n' :: body) := by
    simp
  rw [hsplit, free_append_cons hline, free_append_cons hline, free_append_cons hblank,
    free_append_cons hblank]
  exact ⟨free_of_plain hq (by simp), ⟨free_of_plain hq hbefore, hrel, free_of_plain hq hafter⟩,
    hbody⟩

theorem head?_buildSection (version commit rel : Text) (content : Bytes) :
    (buildSection version commit rel content).head? = some '\n' := rfl

theorem head?_injected : injected.head? = some '\n' := by
  decide +kernel

theorem buildText_free (h : args.Plain) (hq : q ∈ placeholders) {xs : List (Text × Bytes)}
    (hrel : ∀ x ∈ xs, Free q x.1) : Free q (buildText args xs) := by
  obtain ⟨-, hline, -⟩ := placeholder_facts hq
  have hsections : ∀ s : Text, Free q s →
      Free q (s ++ xs.flatMap fun x => buildSection args.version args.commit x.1 x.2) := by
    induction xs with
    | nil => simp
    | cons x xs ih =>
      rw [List.forall_mem_cons] at hrel
      intro s hs
      rw [List.flatMap_cons, ← List.append_assoc]
      refine ih hrel.2 _ (hs.append_of_head (buildSection_free h hq hrel.1 x.2) ?_)
      rw [head?_buildSection]
      rintro c ⟨⟩
      exact hline
  have hinjected : Free q injected := by
    refine free_of_plain hq ?_
    decide +kernel
  refine (hsections _ (buildHeader_free h hq)).append_of_head ?_ ?_
  · split
    · exact hinjected
    · exact free_of_plain hq (by simp)
  · split
    · rw [head?_injected]
      rintro c ⟨⟩
      exact hline
    · rintro c ⟨⟩

/-- Whatever the files of the tree say, no placeholder is left in a build, where none
is in the name of a file. -/
theorem compile_substitutes (h : site.Valid) (hargs : args.Plain)
    (hpaths : ∀ rel ∈ site.paths, ∀ q ∈ placeholders, Free q rel) :
    ∃ text, compile site args = some (Unicode.utf8 text) ∧ ∀ q ∈ placeholders, Free q text := by
  obtain ⟨xs, hx⟩ := h.exists_reads
  refine ⟨buildText args xs, hx.compile_eq h args, fun q hq => buildText_free hargs hq ?_⟩
  intro x hmem
  refine hpaths x.1 ?_ q hq
  rw [← hx.paths]
  exact List.mem_map_of_mem hmem

/-- A version of letters of its placeholder, and a text that closes up around it. -/
example : replaceAll "__VERSION__".toList "VERSION".toList "____VERSION____".toList =
    "__VERSION__".toList := by
  decide +kernel

namespace Mock

def draft : Site :=
  { workshop with
    entries := [("main.sh".toList, .file (Unicode.utf8 "echo __VERSION__".toList))] }

theorem draft_valid : draft.Valid where
  tree := by
    refine .directory _ (by decide) (by decide) fun e he => ?_
    rw [List.mem_singleton.mp he]
    exact .file _
  srcDir := workshop_valid.srcDir

theorem draft_paths : ∀ rel ∈ draft.paths, ∀ q ∈ placeholders, Free q rel := by
  have hall : ∀ rel ∈ (FileTree.filesOf draft.entries).map fun f => unsegment f.1,
      ∀ q ∈ placeholders, Free q rel := by
    decide +kernel
  exact fun rel hrel => hall rel ((Unicode.sort_perm _).mem_iff.mp hrel)

theorem plain_honest : BuildArgs.Plain ⟨"1.2.3".toList, "c0ff33d".toList, false⟩ where
  version := by decide
  commit := by decide
  version_foreign := ⟨'1', by decide, by decide⟩
  commit_foreign := by
    have hall : ∀ q ∈ placeholders, '0' ∉ q := by decide
    exact fun q hq => ⟨'0', by decide, hall q hq⟩

end Mock

theorem compile_substitutes_draft : ∃ text,
    compile Mock.draft ⟨"1.2.3".toList, "c0ff33d".toList, false⟩ = some (Unicode.utf8 text) ∧
      ∀ q ∈ placeholders, Free q text :=
  compile_substitutes Mock.draft_valid Mock.plain_honest Mock.draft_paths

end Verigov
