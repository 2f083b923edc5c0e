import FabricManuals.ChangelogCreator.Calendar

/-! # The lines of an entry

The template and the updated copy of an entry line by line, and the dates that can be
read in them. -/
set_option autoImplicit false

namespace ChangelogCreator

open TextFile Backtrack Lines

def lines (content : Bin) : List Bin := content.splitOn newline

/-- A level-1 deck-log heading. -/
def IsHeading (line : Bin) : Prop := ascii "# ".toList <+: line ∧ ascii "Deck Log".toList <:+: line

def IsDateLine (line : Bin) : Prop := ascii "Date:".toList <+: line

instance (line : Bin) : Decidable (IsHeading line) :=
  inferInstanceAs (Decidable (_ <+: _ ∧ _ <:+: _))

instance (line : Bin) : Decidable (IsDateLine line) := inferInstanceAs (Decidable (_ <+: _))

def dateLine (date : Bin) : Bin := ascii "Date: ".toList ++ date

def IsDigitByte (b : UInt8) : Prop := 48 ≤ b.toNat ∧ b.toNat ≤ 57

instance (b : UInt8) : Decidable (IsDigitByte b) := inferInstanceAs (Decidable (_ ∧ _))

def space : UInt8 := 32

section Content
variable {δ : Type} (tx : Timex δ)

/-- A line with its placeholders read as the date and the weekday of `d`. -/
def reading (d : δ) (line : Bin) : Bin := fillPlaceholders (tx.ymd d) (tx.weekday d) line

def titleOf (d : δ) : Bin := title (tx.ymd d) (tx.weekday d)

variable {tx} {stem stem' : Str} {d d' : δ}

theorem digit_byte {c : Char} (h : isDigit c = true) : IsDigitByte c.toNat.toUInt8 := by
  simp only [isDigit, Bool.and_eq_true, decide_eq_true_eq] at h
  have hlow : 48 ≤ c.toNat := h.1
  have hhigh : c.toNat ≤ 57 := h.2
  have hval : c.toNat.toUInt8.toNat = c.toNat := by
    rw [Nat.toUInt8, UInt8.toNat_ofNat']
    omega
  rw [IsDigitByte, hval]
  exact ⟨hlow, hhigh⟩

theorem ymd_byte (h : tx.parse stem = some d) : ∀ b ∈ tx.ymd d, b = 45 ∨ IsDigitByte b := by
  have hdigits := (tx.parse_exact stem d h).digits
  rw [tx.ymd_parse stem d h]
  intro b hb
  obtain ⟨c, hc, rfl⟩ := List.mem_map.mp hb
  simp only [List.mem_append, List.mem_cons] at hc
  rcases hc with hc | rfl | hc | rfl | hc
  · exact Or.inr (digit_byte (hdigits c (List.mem_of_mem_take hc)))
  · exact Or.inl rfl
  · exact Or.inr (digit_byte (hdigits c (List.mem_of_mem_drop (List.mem_of_mem_take hc))))
  · exact Or.inl rfl
  · exact Or.inr (digit_byte (hdigits c (List.mem_of_mem_drop hc)))

theorem not_mem_ymd (h : tx.parse stem = some d) {b : UInt8} (hdash : b ≠ 45) (hdigit : ¬ IsDigitByte b) :
    b ∉ tx.ymd d :=
  fun hmem => (ymd_byte h b hmem).elim hdash hdigit

theorem ymd_length (h : tx.parse stem = some d) : (tx.ymd d).length = 10 := by
  rw [tx.ymd_parse stem d h]
  simp [ascii, (tx.parse_exact stem d h).length]

theorem exists_digit_ymd (h : tx.parse stem = some d) : ∃ b ∈ tx.ymd d, IsDigitByte b := by
  have hstem := tx.parse_exact stem d h
  obtain ⟨c, rest, rfl⟩ := List.exists_cons_of_length_eq_add_one hstem.length
  refine ⟨c.toNat.toUInt8, ?_, digit_byte (hstem.digits c (List.mem_cons_self ..))⟩
  rw [tx.ymd_parse _ d h]
  simp [ascii]

theorem weekday_byte (d : δ) : ∀ b ∈ tx.weekday d, b ≠ newline ∧ ¬ IsDigitByte b := by
  intro b hb
  have hletter := tx.weekday_letters d b hb
  refine ⟨?_, fun hdigit => ?_⟩
  · intro h
    subst h
    exact absurd hletter (by decide)
  · have := hdigit.2
    omega

theorem stem_of_ymd (h : tx.parse stem = some d) (h' : tx.parse stem' = some d')
    (heq : tx.ymd d = tx.ymd d') : stem = stem' := by
  have hstem := tx.parse_exact stem d h
  have hstem' := tx.parse_exact stem' d' h'
  rw [tx.ymd_parse stem d h, tx.ymd_parse stem' d' h'] at heq
  have hascii : ∀ {s : Str}, IsStem s →
      IsAscii (s.take 4 ++ '-' :: ((s.drop 4).take 2 ++ '-' :: s.drop 6)) := by
    intro s hs c hc
    simp only [List.mem_append, List.mem_cons] at hc
    rcases hc with hc | rfl | hc | rfl | hc
    · exact (hs.ascii c (List.mem_of_mem_take hc)).1
    · decide
    · exact (hs.ascii c (List.mem_of_mem_drop (List.mem_of_mem_take hc))).1
    · decide
    · exact (hs.ascii c (List.mem_of_mem_drop hc)).1
  have htext := congrArg utf8 heq
  rw [utf8_ascii _ (hascii hstem), utf8_ascii _ (hascii hstem')] at htext
  have hparts := List.map_injective_iff.mpr (Option.some_injective Char) htext
  obtain ⟨hyear, hrest⟩ := List.append_inj hparts (by simp [hstem.length, hstem'.length])
  obtain ⟨hmonth, hday⟩ := List.append_inj (List.cons.inj hrest).2 (by simp [hstem.length, hstem'.length])
  rw [stem_eq_parts stem, hyear, hmonth, (List.cons.inj hday).2, ← stem_eq_parts]

theorem eq_of_infix_ymd (h : tx.parse stem = some d) (h' : tx.parse stem' = some d')
    (hwithin : tx.ymd d' <:+: tx.ymd d) : tx.ymd d' = tx.ymd d :=
  hwithin.eq_of_length (by rw [ymd_length h, ymd_length h'])

theorem not_infix_of_no_digit (h : tx.parse stem = some d) {text : Bin} (hno : ∀ b ∈ text, ¬ IsDigitByte b) :
    ¬ tx.ymd d <:+: text := by
  intro hwithin
  obtain ⟨b, hb, hdigit⟩ := exists_digit_ymd h
  exact hno b (hwithin.subset hb) hdigit

theorem space_not_mem_ymd (h : tx.parse stem = some d) : space ∉ tx.ymd d :=
  not_mem_ymd h (by decide) (by decide)

theorem ymd_infix_title (d : δ) : tx.ymd d <:+: titleOf tx d := by
  rw [titleOf, title, List.append_assoc, List.append_assoc]
  exact ⟨titleOpening, _, rfl⟩

theorem eq_of_infix_dateLine (h : tx.parse stem = some d) (h' : tx.parse stem' = some d')
    (hwithin : tx.ymd d' <:+: dateLine (tx.ymd d)) : tx.ymd d' = tx.ymd d := by
  have hsplit : dateLine (tx.ymd d) = ascii "Date:".toList ++ space :: tx.ymd d := rfl
  rw [hsplit] at hwithin
  rcases infix_append_cons (space_not_mem_ymd h') hwithin with hin | hin
  · exact absurd hin (not_infix_of_no_digit h' (by decide))
  · exact eq_of_infix_ymd h h' hin

theorem eq_of_infix_title (h : tx.parse stem = some d) (h' : tx.parse stem' = some d')
    (hwithin : tx.ymd d' <:+: titleOf tx d) : tx.ymd d' = tx.ymd d := by
  have hsplit : titleOf tx d = ascii "# V-Sekai Deck Log -".toList ++
      space :: (tx.ymd d ++ space :: (ascii "(".toList ++ tx.weekday d ++ ascii ")".toList)) := by
    simp [titleOf, title, titleOpening, ascii, space]
  rw [hsplit] at hwithin
  rcases infix_append_cons (space_not_mem_ymd h') hwithin with hin | hin
  · exact absurd hin (not_infix_of_no_digit h' (by decide))
  rcases infix_append_cons (space_not_mem_ymd h') hin with hin | hin
  · exact eq_of_infix_ymd h h' hin
  · refine absurd hin (not_infix_of_no_digit h' ?_)
    intro b hb
    simp only [List.mem_append] at hb
    rcases hb with (hb | hb) | hb
    · exact (by decide : ∀ b ∈ ascii "(".toList, ¬ IsDigitByte b) b hb
    · exact (weekday_byte d b hb).2
    · exact (by decide : ∀ b ∈ ascii ")".toList, ¬ IsDigitByte b) b hb

theorem newline_not_mem_title (h : tx.parse stem = some d) : newline ∉ titleOf tx d := by
  unfold titleOf title
  simp only [List.mem_append, not_or]
  refine ⟨⟨⟨⟨by decide, ?_⟩, by decide⟩, ?_⟩, by decide⟩
  · exact not_mem_ymd h (by decide) (by decide)
  · exact fun hmem => (weekday_byte d _ hmem).1 rfl

theorem lines_basicTemplate (h : tx.parse stem = some d) :
    lines (basicTemplate (tx.ymd d) (tx.weekday d)) =
      [titleOf tx d, [], dateLine (tx.ymd d), [], ascii "- Initial entry.".toList, []] := by
  have hdate : newline ∉ dateLine (tx.ymd d) := by
    rw [dateLine, List.mem_append, not_or]
    exact ⟨by decide, not_mem_ymd h (by decide) (by decide)⟩
  have hsplit : basicTemplate (tx.ymd d) (tx.weekday d) = titleOf tx d ++ newline :: newline ::
      (dateLine (tx.ymd d) ++ newline :: newline :: ascii "- Initial entry.\n".toList) := by
    simp [basicTemplate, titleOf, dateLine, ascii, newline]
  rw [hsplit, lines, splitOn_append newline (newline_not_mem_title h), firstLine_newline,
    splitOn_newline, splitOn_newline, splitOn_append newline hdate, firstLine_newline,
    splitOn_newline, splitOn_newline, List.append_nil, List.append_nil]
  rfl

theorem lines_fillPlaceholders (h : tx.parse stem = some d) (content : Bin) :
    lines (fillPlaceholders (tx.ymd d) (tx.weekday d) content) = (lines content).map (reading tx d) := by
  rw [lines, fillPlaceholders, splitOn_sub_lit (by decide) (by decide),
    splitOn_sub_lit (by decide) (by decide), List.map_map]
  · rfl
  · exact not_mem_ymd h (by decide) (by decide)
  · exact fun hmem => (weekday_byte d _ hmem).1 rfl

theorem lines_updateContent (h : tx.parse stem = some d) (content : Bin) :
    lines (updateContent (tx.ymd d) (tx.weekday d) content) = (lines content).map fun line =>
      if titleOpening <+: reading tx d line then titleOf tx d else reading tx d line := by
  have hsub := splitOn_sub_lineOpening (by decide : newline ∉ titleOpening) (by decide)
    (newline_not_mem_title h) (fillPlaceholders (tx.ymd d) (tx.weekday d) content)
  apply hsub.trans
  rw [← lines, lines_fillPlaceholders h, List.map_map]
  rfl

end Content
end ChangelogCreator
