import FabricManuals.CheckRfdNumbers.Accepts

/-! # The alias table

The alias pass looks for `RFD NNNN` anywhere in `ALIASES.md`.  Where a mention stands
decides whether it is the second cell of a row. -/
set_option autoImplicit false

namespace CheckRfdNumbers

open Lines TextFile Backtrack FileTree OrderedDict PosixPath

def Blank (s : Str) : Prop := ∀ c ∈ s, isSpace c = true ∧ c ≠ '\n'

/-- On its line, only a first cell `RFD 0ddd` and the bar behind it stand in front. -/
def BehindOldCell (U : Unicode) (before : Str) : Prop :=
  ∃ pre old first pad, before = pre ++ '|' :: (first ++ '|' :: pad) ∧ WholeLines '\n' pre ∧
    '\n' ∉ first ∧ '|' ∉ first ∧ IsOldNum U old ∧ strip first = "RFD ".toList ++ old ∧ Blank pad

def EndsCell (after : Str) : Prop :=
  ∃ pad tail, after = pad ++ tail ∧ Blank pad ∧ (AtLineEnd '\n' tail ∨ ∃ rest, tail = '|' :: rest)

/-- A mention in prose, in the first cell or in a later one, in a row without an old
number, or as the beginning of a longer text. -/
def Stray (U : Unicode) (before after : Str) : Prop := ¬ (BehindOldCell U before ∧ EndsCell after)

def mention (num : Str) : Str := "RFD ".toList ++ num

theorem not_space_of_hex {c : Char} (h : isHex c = true) : isSpace c = false := by
  have hrange : 48 ≤ c.toNat ∧ c.toNat ≤ 102 := by
    simp only [isHex, isDigit, Bool.or_eq_true, Bool.and_eq_true, decide_eq_true_eq, Char.le_def,
      UInt32.le_iff_toNat_le] at h
    change _ ∧ c.val.toNat ≤ 57 ∨ _ ∧ c.val.toNat ≤ 102 at h
    rcases h with ⟨hlo, hhi⟩ | ⟨hlo, hhi⟩
    · exact ⟨hlo, hhi.trans (by decide)⟩
    · exact ⟨le_trans (by decide) hlo, hhi⟩
  simp only [isSpace, Bool.or_eq_false_iff, Bool.and_eq_false_iff, decide_eq_false_iff_not, beq_eq_false_iff_ne]
  omega

theorem mention_ends {num : Str} (h : IsNum num) :
    (∃ c ∈ (mention num).head?, isSpace c = false) ∧ ∃ c ∈ (mention num).getLast?, isSpace c = false := by
  refine ⟨⟨'R', rfl, by decide⟩, ?_⟩
  have hne : num ≠ [] := fun hnil => by simpa [hnil] using h.length
  refine ⟨num.getLast hne, ?_, ?_⟩
  · rw [mention, List.getLast?_append_of_ne_nil _ hne]
    exact List.getLast?_eq_some_getLast hne
  · exact not_space_of_hex (h.hex _ (List.getLast_mem hne))

theorem not_mem_mention {num : Str} (h : IsNum num) {c : Char} (hc : isHex c = false)
    (hopening : c ∉ "RFD ".toList) : c ∉ mention num := by
  rw [mention, List.mem_append, not_or]
  exact ⟨hopening, fun hmem => by rw [h.hex c hmem] at hc; cases hc⟩

theorem isAliasRow_iff {U : Unicode} {old num line : Str} (hnum : IsNum num) :
    IsAliasRow U old num line ↔ IsOldNum U old ∧ ∃ first pad pad' tail,
      line = '|' :: (first ++ '|' :: (pad ++ (mention num ++ (pad' ++ tail)))) ∧
      '|' ∉ first ∧ strip first = "RFD ".toList ++ old ∧ (∀ c ∈ pad, isSpace c = true) ∧
      (∀ c ∈ pad', isSpace c = true) ∧ AtLineEnd '|' tail := by
  constructor
  · rintro ⟨hold, first, second, rest, hcells, hfirst, hsecond⟩
    refine ⟨hold, ?_⟩
    obtain ⟨-, ⟨-, hnil⟩ | ⟨t, rfl, ht⟩⟩ := (splitOn_eq_cons_iff '|').mp hcells
    · cases hnil
    obtain ⟨hnot, ⟨-, hnil⟩ | ⟨t', rfl, ht'⟩⟩ := (splitOn_eq_cons_iff '|').mp ht
    · cases hnil
    obtain ⟨pad, pad', hsplit, hpad, hpad'⟩ := strip_split second
    rw [hsecond] at hsplit
    obtain ⟨-, ⟨rfl, -⟩ | ⟨t'', rfl, -⟩⟩ := (splitOn_eq_cons_iff '|').mp ht'
    · exact ⟨first, pad, pad', [], by rw [List.append_nil, mention, ← hsplit]; rfl, hnot, hfirst, hpad,
        hpad', Or.inl rfl⟩
    · refine ⟨first, pad, pad', '|' :: t'', ?_, hnot, hfirst, hpad, hpad', Or.inr ⟨t'', rfl⟩⟩
      rw [hsplit, mention]
      simp
  · rintro ⟨hold, first, pad, pad', tail, rfl, hnot, hfirst, hpad, hpad', htail⟩
    have hbar : ∀ {s : Str}, (∀ c ∈ s, isSpace c = true) → '|' ∉ s :=
      fun hs hmem => absurd (hs '|' hmem) (by decide)
    have hsecond : '|' ∉ pad ++ (mention num ++ pad') := by
      simp only [List.mem_append, not_or]
      exact ⟨hbar hpad, not_mem_mention hnum (by decide) (by decide), hbar hpad'⟩
    have hstrip := strip_between hpad hpad' (mention_ends hnum).1 (mention_ends hnum).2
    rcases htail with rfl | ⟨rest, rfl⟩
    · refine ⟨hold, first, pad ++ (mention num ++ pad'), [], ?_, hfirst, hstrip⟩
      rw [List.append_nil, splitOn_newline, splitOn_line_append '|' hnot, splitOn_of_line '|' hsecond]
    · refine ⟨hold, first, pad ++ (mention num ++ pad'), rest.splitOn '|', ?_, hfirst, hstrip⟩
      rw [splitOn_newline, splitOn_line_append '|' hnot]
      have hregroup : pad ++ (mention num ++ (pad' ++ '|' :: rest)) =
          (pad ++ (mention num ++ pad')) ++ '|' :: rest := by simp
      rw [hregroup, splitOn_line_append '|' hsecond]

theorem exists_row_iff {U : Unicode} {num text : Str} (hnum : IsNum num) :
    (∃ old, ∃ line ∈ lines text, IsAliasRow U old num line) ↔
      ∃ before after, text = before ++ (mention num ++ after) ∧ ¬ Stray U before after := by
  constructor
  · rintro ⟨old, line, hline, hrow⟩
    obtain ⟨hold, first, pad, pad', tail, rfl, hnot, hfirst, hpad, hpad', htail⟩ :=
      (isAliasRow_iff hnum).mp hrow
    obtain ⟨hnl, pre, post, rfl, hpre, hpost⟩ := (mem_splitOn_iff '\n').mp hline
    simp only [List.mem_cons, List.mem_append, not_or] at hnl
    obtain ⟨-, hnlFirst, -, hnlPad, -, hnlPad', hnlTail⟩ := hnl
    refine ⟨pre ++ '|' :: (first ++ '|' :: pad), pad' ++ (tail ++ post), by simp, not_not_intro ⟨?_, ?_⟩⟩
    · exact ⟨pre, old, first, pad, rfl, hpre, hnlFirst, hnot, hold, hfirst,
        fun c hc => ⟨hpad c hc, fun hcnl => hnlPad (hcnl ▸ hc)⟩⟩
    · refine ⟨pad', tail ++ post, rfl, fun c hc => ⟨hpad' c hc, fun hcnl => hnlPad' (hcnl ▸ hc)⟩, ?_⟩
      rcases htail with rfl | ⟨rest, rfl⟩
      · exact Or.inl hpost
      · exact Or.inr ⟨rest ++ post, rfl⟩
  · rintro ⟨before, after, rfl, hproper⟩
    obtain ⟨⟨pre, old, first, pad, rfl, hpre, hnlFirst, hnot, hold, hfirst, hpad⟩,
      pad', tail, rfl, hpad', htail⟩ := not_not.mp hproper
    -- the line goes on to the first newline behind the cell
    obtain ⟨last, post, rfl, hnlLast, hlast, hpost⟩ : ∃ last post, tail = last ++ post ∧ '\n' ∉ last ∧
        AtLineEnd '|' last ∧ AtLineEnd '\n' post := by
      rcases htail with hend | ⟨rest, rfl⟩
      · exact ⟨[], tail, rfl, List.not_mem_nil, Or.inl rfl, hend⟩
      · obtain ⟨l, hl, rfl | ⟨t, rfl⟩⟩ := exists_firstLine '\n' rest
        · exact ⟨'|' :: rest, [], by simp, by simpa using hl, Or.inr ⟨rest, rfl⟩, Or.inl rfl⟩
        · exact ⟨'|' :: l, '\n' :: t, by simp, by simpa using hl, Or.inr ⟨l, rfl⟩, Or.inr ⟨t, rfl⟩⟩
    have hblank : ∀ {s : Str}, Blank s → '\n' ∉ s := fun hs hmem => (hs '\n' hmem).2 rfl
    have hrow : IsAliasRow U old num _ := (isAliasRow_iff hnum).mpr ⟨hold, first, pad, pad', last, rfl, hnot,
      hfirst, fun c hc => (hpad c hc).1, fun c hc => (hpad' c hc).1, hlast⟩
    refine ⟨old, _, (mem_splitOn_iff '\n').mpr ⟨?_, pre, post, by simp, hpre, hpost⟩, hrow⟩
    simp only [List.mem_cons, List.mem_append, not_or]
    exact ⟨by decide, hnlFirst, by decide, hblank hpad, not_mem_mention hnum (by decide) (by decide),
      hblank hpad', hnlLast⟩

def HasAliasRow (U : Unicode) (c : Checkout) (num : Str) : Prop :=
  ∃ text, readStrict c.tree [aliasesMd] = .ok text ∧ ∃ old, ∃ line ∈ lines text, IsAliasRow U old num line

def Mentions (c : Checkout) (num before after : Str) : Prop :=
  readStrict c.tree [aliasesMd] = .ok (before ++ (mention num ++ after))

theorem hasAliasRow_iff {U : Unicode} {c : Checkout} {num : Str} (hnum : IsNum num) :
    HasAliasRow U c num ↔ ∃ before after, Mentions c num before after ∧ ¬ Stray U before after := by
  simp only [HasAliasRow, Mentions, exists_row_iff hnum]
  constructor
  · rintro ⟨text, hread, before, after, rfl, hproper⟩
    exact ⟨before, after, hread, hproper⟩
  · rintro ⟨before, after, hread, hproper⟩
    exact ⟨_, hread, before, after, rfl, hproper⟩

theorem mentions_of_check {U : Unicode} {c : Checkout} (h : check U c = .ok []) {d num : Str}
    (hdir : c.tree.isdir [rfd, d] = true) (hname : FolderName d num) :
    ∃ before after, Mentions c num before after := by
  obtain ⟨-, -, -, -, -, -, haliases⟩ := (check_eq_nil_iff U c).mp h
  obtain ⟨-, text, hread, hmapped⟩ := (aliasPass_eq_nil_iff ..).mp haliases
  have hcandidate := (mem_candidates c.tree d).mpr ⟨hdir, hname.candidate⟩
  have hseen := (mem_seenOf (candidates c.tree) .empty num).mpr (Or.inl ⟨d, hcandidate, hname.numOf_eq⟩)
  obtain ⟨-, before, after, htext⟩ := (mem_findall_aliasRe text num).mp (hmapped num hseen)
  exact ⟨before, after, by rw [Mentions, mention, List.append_assoc, hread, htext]⟩

/-- Where the gate is silent: every folder has its row iff no folder has only stray mentions. -/
theorem alias_rows_iff {U : Unicode} {c : Checkout} (h : check U c = .ok []) :
    (∀ d num, c.tree.isdir [rfd, d] = true → FolderName d num → HasAliasRow U c num) ↔
      ∀ d num before after, c.tree.isdir [rfd, d] = true → FolderName d num →
        Mentions c num before after → Stray U before after →
        ∃ before' after', Mentions c num before' after' ∧ ¬ Stray U before' after' := by
  constructor
  · intro hrows d num before after hdir hname _ _
    exact (hasAliasRow_iff hname.isNum).mp (hrows d num hdir hname)
  · intro hproper d num hdir hname
    obtain ⟨before, after, hmention⟩ := mentions_of_check h hdir hname
    rw [hasAliasRow_iff hname.isNum]
    by_cases hstray : Stray U before after
    · exact hproper d num before after hdir hname hmention hstray
    · exact ⟨before, after, hmention, hstray⟩

theorem alias_rows_iff_clean :
    (∀ d num, cleanTree.isdir [rfd, d] = true → FolderName d num → HasAliasRow .ascii cleanCheckout num) ↔
      ∀ d num before after, cleanTree.isdir [rfd, d] = true → FolderName d num →
        Mentions cleanCheckout num before after → Stray .ascii before after →
        ∃ before' after', Mentions cleanCheckout num before' after' ∧ ¬ Stray .ascii before' after' :=
  alias_rows_iff clean_passes

def proseTree : Tree where
  entries := [([rfd], .dir), ([rfd, "2001-a-slug".toList], .dir),
    (indexOf "2001-a-slug".toList, .file (ascii cleanIndex)),
    ([aliasesMd], .file (ascii "The table is being redone; see RFD 2001.\n".toList))]
  nodup := by decide
  plain := by decide
  closed := by decide

def proseCheckout : Checkout := ⟨["tmp".toList], ["check-rfd-numbers.py".toList], proseTree⟩

theorem prose_passes_for_a_row :
    ¬ ∀ (U : Unicode) (c : Checkout), check U c = .ok [] →
      ∀ d num, c.tree.isdir [rfd, d] = true → FolderName d num → HasAliasRow U c num := by
  intro hrows
  have hname : FolderName "2001-a-slug".toList "2001".toList :=
    ⟨⟨by decide, by decide⟩, by decide, "a-slug".toList, ⟨by decide, by decide⟩, by decide⟩
  obtain ⟨text, hread, old, line, hline, -, first, second, rest, hcells, -⟩ :=
    hrows .ascii proseCheckout (by decide +kernel) _ _ (by decide) hname
  have htext : readStrict proseTree [aliasesMd] = .ok "The table is being redone; see RFD 2001.\n".toList := by
    decide +kernel
  obtain rfl := Except.ok.inj (htext.symm.trans hread)
  have hbars : ∀ l ∈ lines "The table is being redone; see RFD 2001.\n".toList, (l.splitOn '|').length = 1 := by
    decide
  have hlen := hbars line hline
  rw [hcells] at hlen
  simp at hlen

end CheckRfdNumbers
