import FabricManuals.CheckRfdNumbers.Patterns
import FabricManuals.Lib.Surroundings
import FabricManuals.Lib.Utf8Lines

/-! # Citations line by line

A citation has no line break in it and a line break is no part of a word, so a file cites
what its lines do.  The lines are those of the file's bytes: a carriage return before the
newline makes at most an empty line more. -/
set_option autoImplicit false

namespace CheckRfdNumbers

open TextFile Backtrack Lines

section Lines
variable (U : Unicode)

theorem newline_not_word : U.word '\n' = false := by
  rw [U.word_ascii '\n' (by decide)]
  decide

theorem IsOldNum.no_newline {U : Unicode} {num : Str} (h : IsOldNum U num) : '\n' ∉ num := by
  obtain ⟨w, rfl, -, hall⟩ := h.zero
  have hnot : U.decimal '\n' = false := by
    rw [U.decimal_ascii '\n' (by decide)]
    decide
  rw [List.mem_cons, not_or]
  refine ⟨by decide, fun hmem => ?_⟩
  rw [hall '\n' hmem] at hnot
  cases hnot

variable {U} {num : Str}

theorem cites_append_newline (x y : Str) :
    Cites U (x ++ '\n' :: y) num ↔ Cites U x num ∨ Cites U y num := by
  have hword := newline_not_word U
  constructor
  · rintro ⟨pre, post, hsplit, hnum, hbefore, hafter⟩
    rcases three_sides hsplit with ⟨post', rfl, rfl⟩ | ⟨pre', rfl, rfl⟩ | hcover
    · refine Or.inl ⟨pre, post', rfl, hnum, hbefore, ?_⟩
      cases post' with
      | nil => rfl
      | cons c post' => exact hafter
    · refine Or.inr ⟨pre', post, rfl, hnum, ?_, hafter⟩
      rw [boundaryBefore, List.reverse_append, List.reverse_cons] at hbefore
      cases hpre : pre'.reverse with
      | nil => rfl
      | cons c rest =>
          rw [hpre] at hbefore
          exact hbefore
    · have hline : '\n' ∉ "RFD ".toList ++ num := by
        rw [List.mem_append, not_or]
        exact ⟨by decide, hnum.no_newline⟩
      have hat : (x ++ '\n' :: y)[x.length]? = some '\n' := by simp
      rw [hsplit, List.getElem?_append_right hcover.1, List.getElem?_append_left (by omega)] at hat
      exact absurd (List.mem_of_getElem? hat) hline
  · rintro (⟨pre, post, rfl, hnum, hbefore, hafter⟩ | ⟨pre, post, rfl, hnum, hbefore, hafter⟩)
    · refine ⟨pre, post ++ '\n' :: y, by simp, hnum, hbefore, ?_⟩
      cases post with
      | nil => exact hword
      | cons c post => exact hafter
    · refine ⟨x ++ '\n' :: pre, post, by simp, hnum, ?_, hafter⟩
      rw [boundaryBefore, List.reverse_append, List.reverse_cons]
      cases hpre : pre.reverse with
      | nil => exact hword
      | cons c rest =>
          rw [hpre] at hbefore
          exact hbefore

theorem not_cites_nil : ¬ Cites U [] num := by
  rintro ⟨pre, post, hnil, -⟩
  simp at hnil

theorem cites_universalNewlines (a b : Str) (ha : '\n' ∉ a) :
    Cites U (universalNewlines (a ++ '\n' :: b)) num ↔
      Cites U (universalNewlines a) num ∨ Cites U (universalNewlines b) num := by
  rcases universalNewlines_append_newline b a ha with h | ⟨z, hz, h⟩
  · rw [h, cites_append_newline]
  · have hend : Cites U (z ++ ['\n']) num ↔ Cites U z num := by
      rw [cites_append_newline, or_iff_left not_cites_nil]
    rw [h, cites_append_newline, hz, hend]

/-- A file cites what one of its lines does. -/
theorem cites_decodeIgnore_iff (bytes : List UInt8) :
    Cites U (decodeIgnore bytes) num ↔ ∃ line ∈ bytes.splitOn 10, Cites U (decodeIgnore line) num := by
  induction hn : bytes.length using Nat.strong_induction_on generalizing bytes with
  | _ n ih =>
      obtain ⟨l, hl, rfl | ⟨t, rfl⟩⟩ := exists_firstLine 10 bytes
      · rw [splitOn_of_line 10 hl]
        simp
      · have hlt : t.length < n := by
          rw [← hn, List.length_append, List.length_cons]
          omega
        have hraw : '\n' ∉ (utf8 l).filterMap id := by
          intro hmem
          obtain ⟨c, hc, hid⟩ := List.mem_filterMap.mp hmem
          rw [show c = some '\n' from hid] at hc
          exact newline_not_mem_utf8From l begun_none hl hc
        rw [splitOn_line_append 10 hl, List.exists_mem_cons_iff, ← ih t.length hlt t rfl, decodeIgnore,
          utf8_append_newline hl, List.filterMap_append]
        exact cites_universalNewlines _ _ hraw

end Lines
end CheckRfdNumbers
