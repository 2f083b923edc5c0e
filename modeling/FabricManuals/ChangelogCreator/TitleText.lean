import FabricManuals.ChangelogCreator.Content

/-! # Titles of entries as texts

The title line that the script writes is ASCII, so it is one text in whatever way the
file is read, and a text from which the date can be told. -/
set_option autoImplicit false

namespace ChangelogCreator

open TextFile Backtrack

def asText (bytes : Bin) : Str := bytes.map fun b => Char.ofNat b.toNat

theorem byte_asText : ∀ b : UInt8, b.toNat < 128 →
    (Char.ofNat b.toNat).toNat < 128 ∧ (Char.ofNat b.toNat).toNat.toUInt8 = b := by
  intro b hb
  have hvalid : b.toNat.isValidChar := Or.inl (by omega)
  have hchar : (Char.ofNat b.toNat).toNat = b.toNat := by
    rw [Char.ofNat, dif_pos hvalid]
    rfl
  rw [hchar]
  exact ⟨hb, UInt8.ofNat_toNat⟩

theorem ascii_asText {bytes : Bin} (h : ∀ b ∈ bytes, b.toNat < 128) : ascii (asText bytes) = bytes := by
  rw [ascii, asText, List.map_map]
  conv_rhs => rw [← List.map_id bytes]
  exact List.map_congr_left fun b hb => (byte_asText b (h b hb)).2

theorem isAscii_asText {bytes : Bin} (h : ∀ b ∈ bytes, b.toNat < 128) : IsAscii (asText bytes) := by
  intro c hc
  obtain ⟨b, hb, rfl⟩ := List.mem_map.mp hc
  exact (byte_asText b (h b hb)).1

theorem ascii_parts {o a b c e f : Str} {opening date day : Bin} (ho : ascii o ++ ascii a = opening)
    (hb : ascii b = date) (he : ascii e = day) :
    ascii (o ++ (a ++ b ++ c ++ e ++ f)) = opening ++ date ++ ascii c ++ day ++ ascii f := by
  subst ho hb he
  simp only [ascii, List.map_append, List.append_assoc]

theorem mem_ascii {s : Str} {c : Char} (h : c ∈ s) : c.toNat.toUInt8 ∈ ascii s :=
  List.mem_map.mpr ⟨c, h, rfl⟩

section Titles
variable {δ : Type} (tx : Timex δ)

/-- The title of the entry for `d` as the filter reads it. -/
def titleText (d : δ) : Str :=
  "V-Sekai Deck Log - ".toList ++ asText (tx.ymd d) ++ " (".toList ++ asText (tx.weekday d) ++ ")".toList

variable {tx} {stem stem' : Str} {d d' : δ}

theorem ymd_lt (h : tx.parse stem = some d) : ∀ b ∈ tx.ymd d, b.toNat < 128 := by
  intro b hb
  rcases ymd_byte h b hb with rfl | hdigit
  · decide
  · have := hdigit.2
    omega

theorem weekday_lt (tx : Timex δ) (d : δ) : ∀ b ∈ tx.weekday d, b.toNat < 128 := by
  intro b hb
  have := tx.weekday_letters d b hb
  omega

theorem ascii_titleText (h : tx.parse stem = some d) : ascii ("# ".toList ++ titleText tx d) = titleOf tx d :=
  ascii_parts (by decide +kernel) (ascii_asText (ymd_lt h)) (ascii_asText (weekday_lt tx d))

theorem isAscii_append {s s' : Str} (hs : IsAscii s) (hs' : IsAscii s') : IsAscii (s ++ s') :=
  fun c hc => (List.mem_append.mp hc).elim (hs c) (hs' c)

theorem isAscii_titleText (h : tx.parse stem = some d) : IsAscii ("# ".toList ++ titleText tx d) := by
  have hdate := isAscii_append (by decide : IsAscii "V-Sekai Deck Log - ".toList) (isAscii_asText (ymd_lt h))
  have hday := isAscii_append (isAscii_append hdate (by decide : IsAscii " (".toList)) (isAscii_asText (weekday_lt tx d))
  exact isAscii_append (by decide) (isAscii_append hday (by decide))

theorem not_mem_titleText (h : tx.parse stem = some d) {c : Char} (hc : c = '\n' ∨ c = '\r') :
    c ∉ "# ".toList ++ titleText tx d := by
  intro hmem
  have hbyte := mem_ascii hmem
  rw [ascii_titleText h] at hbyte
  have hnot : ∀ b : UInt8, b = 10 ∨ b = 13 → b ∉ titleOf tx d := by
    intro b hb
    have hymd : b ∉ tx.ymd d := not_mem_ymd h (by rcases hb with rfl | rfl <;> decide)
      (by rcases hb with rfl | rfl <;> decide)
    have hday : b ∉ tx.weekday d := by
      intro hin
      have hletter := tx.weekday_letters d b hin
      rcases hb with rfl | rfl
      · exact absurd hletter (by decide)
      · exact absurd hletter (by decide)
    unfold titleOf title
    simp only [List.mem_append, not_or]
    refine ⟨⟨⟨⟨?_, hymd⟩, ?_⟩, hday⟩, ?_⟩ <;> rcases hb with rfl | rfl <;> decide
  rcases hc with rfl | rfl
  · exact hnot 10 (Or.inl rfl) hbyte
  · exact hnot 13 (Or.inr rfl) hbyte

theorem stem_of_titleText (h : tx.parse stem = some d) (h' : tx.parse stem' = some d')
    (heq : titleText tx d = titleText tx d') : stem = stem' := by
  have htitle : titleOf tx d = titleOf tx d' := by
    rw [← ascii_titleText h, ← ascii_titleText h', heq]
  unfold titleOf title at htitle
  simp only [List.append_assoc] at htitle
  have hdates := List.append_cancel_left htitle
  exact stem_of_ymd h h' (List.append_inj_left hdates ((ymd_length h).trans (ymd_length h').symm))

end Titles
end ChangelogCreator
