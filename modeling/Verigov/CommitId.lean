import Verigov.Builder

/-!
# Commit ids

`commitHash32` takes an abbreviated commit id in either letter case for the
32-byte word that starts with its digits. The word does not say how long the
abbreviation was, so ids that differ in zeros at the end only give one word.
-/

namespace Verigov

open Hex

structure CommitId (shortHex : Text) : Prop where
  ne_nil : strip0x shortHex ≠ []
  digits : ∀ c ∈ strip0x shortHex, isDigit c
  length_le : (strip0x shortHex).length ≤ 64

def cleanId (shortHex : Text) : Text := (strip0x shortHex).map Char.toLower

/-- On digits `toLowerCase` is what it is in ASCII, and no other text becomes digits. -/
def Hashing.LowersDigits (H : Hashing) : Prop :=
  ∀ t u, (∀ c ∈ u, isLowerDigit c) → (H.toLowerCase t = u ↔ t.map Char.toLower = u)

variable {H : Hashing} {d d' : Disk} {shortHex shortHex' t : Text}

theorem CommitId.lowerDigits (h : CommitId shortHex) : ∀ c ∈ cleanId shortHex, isLowerDigit c := by
  intro c hc
  obtain ⟨x, hx, rfl⟩ := List.mem_map.mp hc
  rw [isLowerDigit_toLower]
  exact h.digits x hx

theorem CommitId.toLowerCase (h : CommitId shortHex) (hH : H.LowersDigits) :
    H.toLowerCase (strip0x shortHex) = cleanId shortHex := (hH _ _ h.lowerDigits).mpr rfl

theorem commitId_iff (hH : H.LowersDigits) (shortHex : Text) :
    (H.toLowerCase (strip0x shortHex) != [] &&
      (H.toLowerCase (strip0x shortHex)).all isLowerDigit &&
      decide ((H.toLowerCase (strip0x shortHex)).length ≤ 64)) = true ↔ CommitId shortHex := by
  simp only [Bool.and_eq_true, bne_iff_ne, ne_eq, List.all_eq_true, decide_eq_true_eq]
  constructor
  · rintro ⟨⟨hne, hall⟩, hlen⟩
    have hlower := (hH _ _ hall).mp rfl
    rw [← hlower] at hne hall hlen
    refine ⟨by simpa using hne, fun c hc => ?_, by simpa using hlen⟩
    rw [← isLowerDigit_toLower]
    exact hall _ (List.mem_map_of_mem hc)
  · intro h
    rw [h.toLowerCase hH]
    exact ⟨⟨by simpa [cleanId] using h.ne_nil, h.lowerDigits⟩,
      by simpa [cleanId] using h.length_le⟩

theorem commitHash32_run (hH : H.LowersDigits) (shortHex : Text) (d : Disk) :
    (CommitId shortHex ∧
      commitHash32 H shortHex d = .ok ('0' :: 'x' :: (cleanId shortHex).rightpad 64 '0') d) ∨
    (¬ CommitId shortHex ∧
      commitHash32 H shortHex d = .error (.error ("bad commit id ".toList ++ shortHex)) d) := by
  have hiff := commitId_iff hH shortHex
  unfold commitHash32
  simp only [Tool.bind_run]
  by_cases h : CommitId shortHex
  · left
    rw [hiff.mpr h, h.toLowerCase hH]
    exact ⟨h, rfl⟩
  · right
    rw [Bool.eq_false_iff.mpr fun htrue => h (hiff.mp htrue)]
    exact ⟨h, rfl⟩

theorem rightpad_eq_iff {α : Type} {a : α} {n : Nat} {l l' : List α} (h : l.length ≤ n)
    (h' : l'.length ≤ n) : l.rightpad n a = l'.rightpad n a ↔
      ∃ k, l' = l ++ List.replicate k a ∨ l = l' ++ List.replicate k a := by
  have hpad : ∀ (m : List α) k, m.length + k ≤ n →
      (m ++ List.replicate k a).rightpad n a = m.rightpad n a := by
    intro m k hk
    simp only [List.rightpad, List.length_append, List.length_replicate, List.append_assoc,
      List.replicate_append_replicate]
    rw [show k + (n - (m.length + k)) = n - m.length by omega]
  have hzeros : ∀ {x : List α} {j k}, List.replicate j a = x ++ List.replicate k a →
      x = List.replicate x.length a := by
    intro x j k heq
    refine List.eq_replicate_of_mem fun b hb => ?_
    have hmem : b ∈ List.replicate j a := by
      rw [heq]
      exact List.mem_append_left _ hb
    exact List.eq_of_mem_replicate hmem
  constructor
  · intro heq
    rcases List.append_eq_append_iff.mp heq with ⟨x, hx, hrest⟩ | ⟨x, hx, hrest⟩
    · exact ⟨x.length, .inl (by rw [hx, ← hzeros hrest])⟩
    · exact ⟨x.length, .inr (by rw [hx, ← hzeros hrest])⟩
  · rintro ⟨k, rfl | rfl⟩
    · exact (hpad l k (by simpa using h')).symm
    · exact hpad l' k (by simpa using h)

def commitWord (shortHex : Text) : Bytes := unhex ((cleanId shortHex).rightpad 64 '0')

theorem CommitId.hex_commitWord (h : CommitId shortHex) :
    hex (commitWord shortHex) = (cleanId shortHex).rightpad 64 '0' ∧
      (commitWord shortHex).length = 32 := by
  have hlen : ((cleanId shortHex).rightpad 64 '0').length = 64 := by
    have hle := h.length_le
    simp only [List.rightpad, cleanId, List.length_append, List.length_map, List.length_replicate]
    omega
  constructor
  · refine hex_unhex (fun c hc => ?_) (by rw [hlen])
    rcases List.mem_append.mp hc with hc | hc
    · exact h.lowerDigits c hc
    · rw [List.eq_of_mem_replicate hc]
      rfl
  · rw [commitWord, length_unhex, hlen]

/-- `commitHash32` returns just for commit ids, and then a word of 32 bytes;
otherwise its error names the id. Two ids have one word iff their digits are the
same up to letter case and to zeros at the end. -/
theorem commitHash32_exact (hH : H.LowersDigits) (hL : H.Lawful) (d : Disk) :
    (∀ shortHex, CommitId shortHex → ∃ h : Hash32,
      commitHash32 H shortHex d = .ok (H.u8aToHex h.toList) d ∧
        cleanId shortHex <+: hex h.toList) ∧
    (∀ shortHex, ¬ CommitId shortHex →
      commitHash32 H shortHex d = .error (.error ("bad commit id ".toList ++ shortHex)) d) ∧
    ∀ shortHex shortHex', CommitId shortHex → CommitId shortHex' →
      (commitHash32 H shortHex d = commitHash32 H shortHex' d ↔
        ∃ k, cleanId shortHex' = cleanId shortHex ++ List.replicate k '0' ∨
          cleanId shortHex = cleanId shortHex' ++ List.replicate k '0') := by
  refine ⟨fun shortHex h => ?_, fun shortHex h => ?_, fun shortHex shortHex' h h' => ?_⟩
  · obtain ⟨hhex, hlen⟩ := h.hex_commitWord
    refine ⟨.ofBytes _ hlen, ?_, ?_⟩
    · rw [hL.u8aToHex, Hash32.toList_ofBytes, hhex]
      exact ((commitHash32_run hH shortHex d).resolve_right fun hn => hn.1 h).2
    · rw [Hash32.toList_ofBytes, hhex]
      exact List.prefix_append _ _
  · exact ((commitHash32_run hH shortHex d).resolve_left fun hy => h hy.1).2
  · have hle : (cleanId shortHex).length ≤ 64 := by simpa [cleanId] using h.length_le
    have hle' : (cleanId shortHex').length ≤ 64 := by simpa [cleanId] using h'.length_le
    rw [((commitHash32_run hH shortHex d).resolve_right fun hn => hn.1 h).2,
      ((commitHash32_run hH shortHex' d).resolve_right fun hn => hn.1 h').2,
      ← rightpad_eq_iff hle hle']
    simp

namespace Mock

theorem hashing_lowersDigits : hashing.LowersDigits := fun _ _ _ => Iff.rfl

end Mock

theorem commitHash32_exact_short : ∃ h : Hash32,
    commitHash32 Mock.hashing "0xC0FF33D".toList Disk.empty =
      .ok (Mock.hashing.u8aToHex h.toList) Disk.empty ∧ "c0ff33d".toList <+: hex h.toList :=
  (commitHash32_exact Mock.hashing_lowersDigits Mock.hashing_lawful Disk.empty).1
    "0xC0FF33D".toList ⟨by decide, List.all_eq_true.mp (by decide), by decide⟩

end Verigov
