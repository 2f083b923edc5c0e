import FabricManuals.Lib.TextFile

/-! # UTF-8 line by line

No character but the newline has a byte of value 10, and that byte ends whatever stretch
it meets.  So the lines of a file and the lines of its text are the same lines. -/
set_option autoImplicit false

namespace TextFile

open Lines

def Reads (bytes : List UInt8) (text : Str) : Prop := utf8 bytes = text.map some

/-- What a begun stretch owes: continuation bytes, and no character below 128. -/
def Partial.Owes (p : Partial) : Prop :=
  0x80 ≤ p.lo ∧ p.hi ≤ 0xBF ∧ (2 ≤ p.code ∨ (2 ≤ p.owed ∧ (1 ≤ p.code ∨ 0x90 ≤ p.lo)))

def Begun (state : Option Partial) : Prop := ∀ p ∈ state, p.Owes

theorem begun_none : Begun none := fun _ h => absurd h (by simp)

theorem ofNat_ne_newline {n : Nat} (h : 128 ≤ n) : Char.ofNat n ≠ '\n' := by
  intro heq
  have hval : (Char.ofNat n).toNat = 10 := by rw [heq]; rfl
  by_cases hvalid : n.isValidChar
  · rw [Char.ofNat, dif_pos hvalid] at hval
    have hself : n = 10 := hval
    omega
  · rw [Char.ofNat, dif_neg hvalid] at hval
    cases hval

theorem leadByte_begun (b : Nat) (hb : b ≠ 10) :
    Begun (leadByte b).2 ∧ some '\n' ∉ (leadByte b).1 := by
  unfold leadByte Begun
  split
  · next hlow =>
      refine ⟨by simp, ?_⟩
      rw [List.mem_singleton, Option.some.injEq]
      intro heq
      have hval := congrArg Char.toNat heq
      have hself : (Char.ofNat b).toNat = b := by
        rw [Char.ofNat, dif_pos (Or.inl (by omega))]
        rfl
      rw [hself] at hval
      exact hb hval.symm
  · split_ifs <;> simp_all [Partial.Owes] <;> omega

theorem nextByte_within {p : Partial} {b : Nat} (h : p.lo ≤ b ∧ b ≤ p.hi) :
    nextByte b (some p) = if p.owed ≤ 1 then ([some (Char.ofNat (p.code * 64 + b % 64))], none)
      else ([], some ⟨p.owed - 1, p.code * 64 + b % 64, 0x80, 0xBF⟩) := by
  simp [nextByte, h]

theorem nextByte_outside {p : Partial} {b : Nat} (h : ¬ (p.lo ≤ b ∧ b ≤ p.hi)) :
    nextByte b (some p) = (none :: (leadByte b).1, (leadByte b).2) := by
  have hbit : (decide (p.lo ≤ b) && decide (b ≤ p.hi)) = false := by simpa using h
  simp only [nextByte, hbit, Bool.false_eq_true, if_false]

theorem nextByte_begun {state : Option Partial} (h : Begun state) (b : Nat) (hb : b ≠ 10) :
    Begun (nextByte b state).2 ∧ some '\n' ∉ (nextByte b state).1 := by
  cases state with
  | none => exact leadByte_begun b hb
  | some p =>
      obtain ⟨hlo, hhi, hcode⟩ := h p rfl
      obtain ⟨hlead, hnot⟩ := leadByte_begun b hb
      by_cases hin : p.lo ≤ b ∧ b ≤ p.hi
      · rw [nextByte_within hin]
        by_cases howed : p.owed ≤ 1
        · rw [if_pos howed]
          refine ⟨begun_none, ?_⟩
          rw [List.mem_singleton, Option.some.injEq]
          exact fun heq => ofNat_ne_newline (by omega) heq.symm
        · rw [if_neg howed]
          refine ⟨?_, List.not_mem_nil⟩
          rintro q hq
          obtain rfl := Option.some.inj hq
          refine ⟨le_refl _, le_refl _, Or.inl ?_⟩
          show 2 ≤ p.code * 64 + b % 64
          omega
      · rw [nextByte_outside hin]
        refine ⟨hlead, ?_⟩
        rw [List.mem_cons, not_or]
        exact ⟨by simp, hnot⟩

theorem newline_not_mem_utf8From : ∀ (l : List UInt8) {state : Option Partial}, Begun state → 10 ∉ l →
    some '\n' ∉ utf8From state l := by
  intro l
  induction l with
  | nil => intro state _ _; cases state <;> simp [utf8From]
  | cons b l ih =>
      intro state hstate hl
      rw [List.mem_cons, not_or] at hl
      have hbyte : b.toNat ≠ 10 := fun h => hl.1 (UInt8.toNat_inj.mp h).symm
      obtain ⟨hnext, hnot⟩ := nextByte_begun hstate b.toNat hbyte
      rw [utf8From, List.mem_append, not_or]
      exact ⟨hnot, ih hnext hl.2⟩

theorem utf8From_newline {state : Option Partial} (h : Begun state) (t : List UInt8) :
    utf8From state (10 :: t) = utf8From state [] ++ some '\n' :: utf8 t := by
  cases state with
  | none => rfl
  | some p =>
      have hlo := (h p rfl).1
      have hout : ¬ (p.lo ≤ (10 : UInt8).toNat ∧ (10 : UInt8).toNat ≤ p.hi) := by
        have hten : (10 : UInt8).toNat = 10 := rfl
        omega
      have hstep : utf8From (some p) (10 :: t) = (nextByte (10 : UInt8).toNat (some p)).1 ++
          utf8From (nextByte (10 : UInt8).toNat (some p)).2 t := rfl
      rw [hstep, nextByte_outside hout]
      rfl

theorem utf8From_append_newline (t : List UInt8) : ∀ (l : List UInt8) {state : Option Partial}, Begun state →
    10 ∉ l → utf8From state (l ++ 10 :: t) = utf8From state l ++ some '\n' :: utf8 t := by
  intro l
  induction l with
  | nil => intro state hstate _; exact utf8From_newline hstate t
  | cons b l ih =>
      intro state hstate hl
      rw [List.mem_cons, not_or] at hl
      have hbyte : b.toNat ≠ 10 := fun h => hl.1 (UInt8.toNat_inj.mp h).symm
      obtain ⟨hnext, -⟩ := nextByte_begun hstate b.toNat hbyte
      rw [List.cons_append, utf8From, utf8From, ih hnext hl.2, List.append_assoc]

theorem utf8_append_newline {l : List UInt8} (hl : 10 ∉ l) (t : List UInt8) :
    utf8 (l ++ 10 :: t) = utf8 l ++ some '\n' :: utf8 t :=
  utf8From_append_newline t l begun_none hl

theorem newline_not_mem_of_reads {l : List UInt8} {text : Str} (hl : 10 ∉ l) (h : Reads l text) : '\n' ∉ text := by
  intro hmem
  have hnot := newline_not_mem_utf8From l begun_none hl
  rw [← utf8, h] at hnot
  exact hnot (List.mem_map.mpr ⟨'\n', hmem, rfl⟩)

theorem Reads.append_newline {l t : List UInt8} {line rest : Str} (h : Reads l line) (hl : 10 ∉ l)
    (ht : Reads t rest) : Reads (l ++ 10 :: t) (line ++ '\n' :: rest) := by
  rw [Reads, utf8_append_newline hl, h, ht, List.map_append, List.map_cons]

theorem Reads.of_append_newline {l t : List UInt8} {text : Str} (hl : 10 ∉ l)
    (h : Reads (l ++ 10 :: t) text) : ∃ line rest, text = line ++ '\n' :: rest ∧ Reads l line ∧ Reads t rest := by
  rw [Reads, utf8_append_newline hl] at h
  obtain ⟨line, behind, rfl, hline, hbehind⟩ := List.map_eq_append_iff.mp h.symm
  obtain ⟨c, rest, rfl, hc, hrest⟩ := List.map_eq_cons_iff.mp hbehind
  rw [Option.some.injEq] at hc
  exact ⟨line, rest, by rw [hc], hline.symm, hrest.symm⟩

/-- Line by line the bytes are those of the text. -/
theorem Reads.lines {bytes : List UInt8} {text : Str} (h : Reads bytes text) :
    List.Forall₂ Reads (bytes.splitOn 10) (text.splitOn '\n') := by
  induction hn : bytes.length using Nat.strong_induction_on generalizing bytes text with
  | _ n ih =>
      obtain ⟨l, hl, rfl | ⟨t, rfl⟩⟩ := exists_firstLine 10 bytes
      · rw [splitOn_of_line 10 hl, splitOn_of_line '\n' (newline_not_mem_of_reads hl h)]
        exact .cons h .nil
      · obtain ⟨line, rest, rfl, hline, hrest⟩ := Reads.of_append_newline hl h
        rw [splitOn_line_append 10 hl, splitOn_line_append '\n' (newline_not_mem_of_reads hl hline)]
        have hlt : t.length < n := by
          rw [← hn, List.length_append, List.length_cons]
          omega
        exact .cons hline (ih t.length hlt hrest rfl)

theorem exists_reads_of_lines {bytes : List UInt8} {ls : List Str} (h : List.Forall₂ Reads (bytes.splitOn 10) ls) :
    ∃ text, Reads bytes text ∧ text.splitOn '\n' = ls := by
  induction hn : bytes.length using Nat.strong_induction_on generalizing bytes ls with
  | _ n ih =>
      obtain ⟨l, hl, rfl | ⟨t, rfl⟩⟩ := exists_firstLine 10 bytes
      · rw [splitOn_of_line 10 hl] at h
        cases h with
        | cons hline hrest =>
            cases hrest
            exact ⟨_, hline, splitOn_of_line '\n' (newline_not_mem_of_reads hl hline)⟩
      · rw [splitOn_line_append 10 hl] at h
        cases h with
        | cons hline hrest =>
            have hlt : t.length < n := by
              rw [← hn, List.length_append, List.length_cons]
              omega
            obtain ⟨text, htext, rfl⟩ := ih t.length hlt hrest rfl
            exact ⟨_, hline.append_newline hl htext,
              splitOn_line_append '\n' (newline_not_mem_of_reads hl hline) text⟩

end TextFile
