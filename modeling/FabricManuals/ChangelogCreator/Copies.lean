import FabricManuals.ChangelogCreator.Dates
import FabricManuals.Lib.Pieces

/-! # Entries as copies of one text

The first entry of a history fills the placeholders of its source, and every later one
copies the one before it.  So all of them are one text under different titles. -/
set_option autoImplicit false

namespace ChangelogCreator

open TextFile Backtrack Lines FileTree FileScript

def percent : UInt8 := 37

def datePlaceholder : Bin := ascii "%%DATE%%".toList
def dayPlaceholder : Bin := ascii "%%DAY_OF_WEEK%%".toList

structure Filled (content : Bin) : Prop where
  date : ¬ datePlaceholder <:+: content
  day : ¬ dayPlaceholder <:+: content

def IsLower (b : UInt8) : Prop := 97 ≤ b.toNat ∧ b.toNat ≤ 122

instance (b : UInt8) : Decidable (IsLower b) := inferInstanceAs (Decidable (_ ∧ _))

theorem dayNames_lower : ∀ name ∈ dayNames, ∃ b ∈ ascii name, IsLower b := by
  decide +kernel

section Copies
variable {δ : Type} (tx : Timex δ) (g : Graphemes)

/-- The last step of an update: the title lines are those of `d`. -/
def retitle (d : δ) (content : Bin) : Bin :=
  sub (lineOpening newline titleOpening) (titleOf tx d) content

/-- The text of a first entry for `d`, but for its title. -/
def Base (t : Tree) (d : δ) (base : Bin) : Prop :=
  match latestIn g t with
  | none => base = basicTemplate (tx.ymd d) (tx.weekday d)
  | some src => ∃ bytes, t.read src = .ok bytes ∧ base = fillPlaceholders (tx.ymd d) (tx.weekday d) bytes

/-- The entries of `stems` are `base` under their titles, and the latest is one of them. -/
structure Chain (t : Tree) (stems : List Str) (base : Bin) : Prop where
  entries : ∀ stem ∈ stems, ∃ d, tx.parse stem = some d ∧
    t.find? (entryPath stem) = some (.file (retitle tx d base))
  latest : ∃ stem ∈ stems, latestIn g t = some (entryPath stem)

variable {tx g} {t t' : Tree} {stem stem' : Str} {d d' : δ} {content base : Bin}

theorem eq_of_lines {c c' : Bin} (h : lines c = lines c') : c = c' := by
  have hjoin : ∀ c : Bin, [newline].intercalate (lines c) = c := fun c => List.intercalate_splitOn newline
  rw [← hjoin c, h, hjoin]

theorem lines_retitle (h : tx.parse stem = some d) (content : Bin) :
    lines (retitle tx d content) =
      (lines content).map fun line => if titleOpening <+: line then titleOf tx d else line :=
  splitOn_sub_lineOpening (by decide) (by decide) (newline_not_mem_title h) content

theorem retitle_retitle (h : tx.parse stem = some d) (h' : tx.parse stem' = some d') (content : Bin) :
    retitle tx d (retitle tx d' content) = retitle tx d content := by
  apply eq_of_lines
  rw [lines_retitle h, lines_retitle h', lines_retitle h, List.map_map]
  refine List.map_congr_left fun line _ => ?_
  by_cases hopen : titleOpening <+: line
  · simp only [Function.comp_apply, if_pos hopen, if_pos (titleOpening_prefix_titleOf d')]
  · simp only [Function.comp_apply, if_neg hopen]

theorem retitle_basicTemplate (h : tx.parse stem = some d) :
    retitle tx d (basicTemplate (tx.ymd d) (tx.weekday d)) = basicTemplate (tx.ymd d) (tx.weekday d) := by
  have hdate : ¬ titleOpening <+: dateLine (tx.ymd d) := fun hopen =>
    not_isDateLine_of_titleOpening hopen
      ((by decide : ascii "Date:".toList <+: ascii "Date: ".toList).trans (List.prefix_append _ _))
  have hempty : ¬ titleOpening <+: ([] : Bin) := by decide
  have hinitial : ¬ titleOpening <+: ascii "- Initial entry.".toList := by decide
  apply eq_of_lines
  rw [lines_retitle h, lines_basicTemplate h]
  simp only [List.map_cons, List.map_nil, if_pos (titleOpening_prefix_titleOf d), if_neg hdate,
    if_neg hempty, if_neg hinitial]

theorem percent_not_mem_weekday (d : δ) : percent ∉ tx.weekday d := by
  intro hmem
  exact absurd (tx.weekday_letters d percent hmem) (by decide)

theorem percent_not_mem_title (h : tx.parse stem = some d) : percent ∉ titleOf tx d := by
  unfold titleOf title
  simp only [List.mem_append, not_or]
  refine ⟨⟨⟨⟨by decide, ?_⟩, by decide⟩, percent_not_mem_weekday d⟩, by decide⟩
  exact not_mem_ymd h (by decide) (by decide)

theorem percent_not_mem_basicTemplate (h : tx.parse stem = some d) :
    percent ∉ basicTemplate (tx.ymd d) (tx.weekday d) := by
  unfold basicTemplate
  simp only [List.mem_append, not_or]
  refine ⟨⟨⟨percent_not_mem_title h, by decide⟩, ?_⟩, by decide⟩
  exact not_mem_ymd h (by decide) (by decide)

theorem filled_of_not_mem (h : percent ∉ content) : Filled content where
  date hpart := h (hpart.subset (by decide))
  day hpart := h (hpart.subset (by decide))

theorem severs_ymd (h : tx.parse stem = some d) : Severs datePlaceholder (tx.ymd d) := by
  obtain ⟨b, hb, hdigit⟩ := exists_digit_ymd h
  have hnot : percent ∉ tx.ymd d := not_mem_ymd h (by decide) (by decide)
  have hother : ∀ b ∈ datePlaceholder, ¬ IsDigitByte b := by decide
  exact severs_of_mem hb (fun hmem => hother b hmem hdigit) (b := percent) (c := percent) rfl hnot rfl hnot

theorem severs_weekday (hlower : ∃ b ∈ tx.weekday d, IsLower b) {w : Bin} (hw : ∀ b ∈ w, ¬ IsLower b)
    (hhead : w.head? = some percent) (hlast : w.getLast? = some percent) : Severs w (tx.weekday d) := by
  obtain ⟨b, hb, hb'⟩ := hlower
  exact severs_of_mem hb (fun hmem => hw b hmem hb') hhead (percent_not_mem_weekday d) hlast
    (percent_not_mem_weekday d)

theorem filled_fillPlaceholders (h : tx.parse stem = some d) (hlower : ∃ b ∈ tx.weekday d, IsLower b)
    (content : Bin) : Filled (fillPlaceholders (tx.ymd d) (tx.weekday d) content) where
  date := by
    have hdate := not_infix_sub_lit_self (by decide) (severs_ymd h) content
    exact not_infix_sub_lit (by decide) (by decide) (severs_weekday hlower (by decide) rfl rfl) hdate
  day := not_infix_sub_lit_self (by decide) (severs_weekday hlower (by decide) rfl rfl) _

theorem Filled.fillPlaceholders (h : Filled content) (date day : Bin) :
    fillPlaceholders date day content = content := by
  have hdate : sub (lit (ascii "%%DATE%%".toList)) date content = content :=
    sub_lit_of_not_infix (by decide) date h.date
  have hday : sub (lit (ascii "%%DAY_OF_WEEK%%".toList)) day content = content :=
    sub_lit_of_not_infix (by decide) day h.day
  rw [ChangelogCreator.fillPlaceholders, hdate, hday]

theorem Filled.retitle (h : Filled content) (hparse : tx.parse stem = some d) :
    Filled (retitle tx d content) := by
  have hline : ∀ w : Bin, percent ∈ w → ¬ w <:+: content →
      ∀ line ∈ lines (ChangelogCreator.retitle tx d content), ¬ w <:+: line := by
    intro w hw hcontent line hmem
    rw [lines_retitle hparse, List.mem_map] at hmem
    obtain ⟨source, hsource, rfl⟩ := hmem
    split
    · exact fun hpart => percent_not_mem_title hparse (hpart.subset hw)
    · exact fun hpart => hcontent (hpart.trans (infix_of_mem_splitOn newline hsource))
  exact ⟨not_infix_of_lines (by decide) (by decide) (hline _ (by decide) h.date),
    not_infix_of_lines (by decide) (by decide) (hline _ (by decide) h.day)⟩

theorem updateContent_retitle (hfilled : Filled base) (h : tx.parse stem = some d)
    (h' : tx.parse stem' = some d') :
    updateContent (tx.ymd d) (tx.weekday d) (retitle tx d' base) = retitle tx d base := by
  have hfill := (hfilled.retitle h').fillPlaceholders (tx.ymd d) (tx.weekday d)
  rw [updateContent, hfill]
  exact retitle_retitle h h' base

theorem exists_base (h : EntryContent tx g t d content) (hparse : tx.parse stem = some d)
    (hlower : ∃ b ∈ tx.weekday d, IsLower b) :
    ∃ base, Base tx g t d base ∧ Filled base ∧ content = retitle tx d base := by
  unfold EntryContent at h
  unfold Base
  cases hlatest : latestIn g t with
  | none =>
      rw [hlatest] at h
      exact ⟨_, rfl, filled_of_not_mem (percent_not_mem_basicTemplate hparse),
        h.trans (retitle_basicTemplate hparse).symm⟩
  | some src =>
      rw [hlatest] at h
      obtain ⟨bytes, hread, rfl⟩ := h
      exact ⟨_, ⟨bytes, hread, rfl⟩, filled_fillPlaceholders hparse hlower bytes, rfl⟩

theorem Grown.trans {t₁ : Tree} (h : Grown t t₁) (h' : Grown t₁ t') : Grown t t' where
  kept p e he := h'.kept p e (h.kept p e he)
  new p e he := by
    rcases h'.new p e he with hmid | ⟨hnone, hdir⟩
    · exact h.new p e hmid
    · refine Or.inr ⟨?_, hdir⟩
      cases hold : t.find? p with
      | none => rfl
      | some e' =>
          rw [h.kept p e' hold] at hnone
          cases hnone
  entries := h'.entries.trans h.entries

theorem isDateText_of_latestIn {f : Path} (h : latestIn g t = some f) : isDateText (datePart g f) = true := by
  rw [latestIn, latestOf, Option.map_eq_some_iff] at h
  obtain ⟨e, he, rfl⟩ := h
  have hmem := List.mem_of_mem_head? he
  rw [List.mem_insertionSort, List.mem_filter, List.mem_map] at hmem
  obtain ⟨⟨file, -, rfl⟩, hdate⟩ := hmem
  exact hdate

theorem Creates.latestIn (h : Creates tx g t t' stem d content) : latestIn g t' = some (entryPath stem) := by
  have hpattern : deckLogPattern (entryPath stem) = true :=
    (deckLogPattern_iff _).mpr (deckLog_entryPath h.isStem)
  have hentry := (find?_eq_some_iff t' (p := entryPath stem) (by simp [entryPath]) _).mp h.made
  have hmem : entryPath stem ∈ wildcardIn t' deckLogPattern :=
    (mem_wildcardIn ..).mpr ⟨⟨_, hentry⟩, hpattern⟩
  have hdate : isDateText (datePart g (entryPath stem)) = true := by
    rw [datePart_entryPath g h.isStem]
    exact isDateText_of_isStem h.isStem
  cases hlatest : ChangelogCreator.latestIn g t' with
  | none =>
      rw [latestOf_eq_none g hlatest _ hmem] at hdate
      cases hdate
  | some f =>
      obtain ⟨hf, hmax⟩ := latestOf_eq_some g hlatest
      obtain ⟨e, he⟩ := find?_of_mem_wildcardIn hf
      have hkeep := ((mem_wildcardIn ..).mp hf).2
      rcases h.new f e he with hold | ⟨-, -, hdir⟩ | ⟨rfl, -⟩
      · have hne : f ≠ [] := by
          rintro rfl
          cases hkeep
        have hold' : f ∈ wildcardIn t deckLogPattern :=
          (mem_wildcardIn ..).mpr ⟨⟨e, (find?_eq_some_iff t hne e).mp hold⟩, hkeep⟩
        have hlt := h.newest.later f hold' (isDateText_of_latestIn hlatest)
        have hle := hmax _ hmem hdate
        rw [datePart_entryPath g h.isStem] at hle
        exact absurd (lt_of_le_of_lt hle hlt) (lt_irrefl _)
      · rw [hkeep] at hdir
        cases hdir
      · rfl

theorem Grown.chain {stems : List Str} (h : Grown t t') (hchain : Chain tx g t stems base) :
    Chain tx g t' stems base where
  entries old hold := by
    obtain ⟨d, hparse, hfind⟩ := hchain.entries old hold
    exact ⟨d, hparse, h.kept _ _ hfind⟩
  latest := by
    rw [h.latestIn_eq]
    exact hchain.latest

theorem Creates.chain_first (h : Creates tx g t t' stem d (retitle tx d base)) : Chain tx g t' [stem] base where
  entries new hnew := by
    obtain rfl := List.mem_singleton.mp hnew
    exact ⟨d, h.parsed, h.made⟩
  latest := ⟨stem, List.mem_singleton.mpr rfl, h.latestIn⟩

theorem Creates.chain {stems : List Str} (h : Creates tx g t t' stem d content) (hfilled : Filled base)
    (hchain : Chain tx g t stems base) : Chain tx g t' (stems ++ [stem]) base where
  entries new hnew := by
    rcases List.mem_append.mp hnew with hold | hnew
    · obtain ⟨d', hparse, hfind⟩ := hchain.entries new hold
      exact ⟨d', hparse, h.kept _ _ hfind⟩
    · obtain rfl := List.mem_singleton.mp hnew
      obtain ⟨last, hlast, hlatest⟩ := hchain.latest
      obtain ⟨d', hparse, hfind⟩ := hchain.entries last hlast
      have hcontent := h.contents
      rw [EntryContent, hlatest] at hcontent
      obtain ⟨bytes, hread, rfl⟩ := hcontent
      rw [read_eq_ok_iff, hfind] at hread
      cases hread
      have hmade := h.made
      rw [updateContent_retitle hfilled h.parsed hparse] at hmade
      exact ⟨d, h.parsed, hmade⟩
  latest := ⟨stem, by simp, h.latestIn⟩

variable (tx g)

theorem runAll_chain (hlower : ∀ d, ∃ b ∈ tx.weekday d, IsLower b) (ht : NoDangling t) (invs : List Invocation) :
    (addedStems tx g invs t = [] ∧ Grown t (runAll tx g invs t)) ∨
      ∃ first rest d base, addedStems tx g invs t = first :: rest ∧ tx.parse first = some d ∧
        Base tx g t d base ∧ Filled base ∧ Chain tx g (runAll tx g invs t) (first :: rest) base := by
  induction invs using List.reverseRecOn with
  | nil => exact Or.inl ⟨rfl, Grown.refl t⟩
  | append_singleton before inv ih =>
      rw [addedStems_concat, runAll_concat]
      have hrun := after_cases tx g inv (runAll_noDangling tx g before ht)
      rcases ih with ⟨hnone, hgrown⟩ | ⟨first, rest, d₁, base, hstems, hparse, hbase, hfilled, hchain⟩
      · rcases hrun with h | ⟨d, content, h⟩
        · exact Or.inl ⟨by simp [hnone, h.newFiles], hgrown.trans h⟩
        · obtain ⟨base, hbase, hfilled, rfl⟩ :=
            exists_base (hgrown.entryContent tx g h.contents) h.parsed (hlower d)
          exact Or.inr ⟨inv.stem, [], d, base, by simp [hnone, h.newFiles], h.parsed, hbase, hfilled,
            h.chain_first⟩
      · rcases hrun with h | ⟨d, content, h⟩
        · exact Or.inr ⟨first, rest, d₁, base, by simp [hstems, h.newFiles], hparse, hbase, hfilled,
            h.chain hchain⟩
        · exact Or.inr ⟨first, rest ++ [inv.stem], d₁, base, by simp [hstems, h.newFiles], hparse, hbase,
            hfilled, h.chain hfilled hchain⟩

/-- All entries of a history are the text of the first one, without a placeholder, and
differ in their titles only. -/
theorem entries_are_one_text (hlower : ∀ d, ∃ b ∈ tx.weekday d, IsLower b) (ht : NoDangling t)
    (invs : List Invocation) {first : Str} {rest : List Str}
    (hadded : addedStems tx g invs t = first :: rest) :
    ∃ d base, tx.parse first = some d ∧ Base tx g t d base ∧ Filled base ∧
      ∀ stem ∈ first :: rest, ∃ d', tx.parse stem = some d' ∧
        (runAll tx g invs t).find? (entryPath stem) = some (.file (retitle tx d' base)) := by
  rcases runAll_chain tx g hlower ht invs with ⟨hnone, -⟩ |
    ⟨f, r, d, base, hstems, hparse, hbase, hfilled, hchain⟩
  · rw [hadded] at hnone
    cases hnone
  · obtain ⟨rfl, rfl⟩ := List.cons.inj (hadded.symm.trans hstems)
    exact ⟨d, base, hparse, hbase, hfilled, hchain.entries⟩

end Copies

theorem weekday_gregorian (s : Str) : ∃ name ∈ dayNames, gregorian.weekday s = ascii name := by
  have hlt : dayOfWeek s < dayNames.length := Nat.mod_lt _ (by decide)
  refine ⟨dayNames.getD (dayOfWeek s) [], ?_, rfl⟩
  rw [List.getD_eq_getElem?_getD, List.getElem?_eq_getElem hlt]
  exact List.getElem_mem hlt

theorem weekday_gregorian_lower (s : Str) : ∃ b ∈ gregorian.weekday s, IsLower b := by
  obtain ⟨name, hname, hweekday⟩ := weekday_gregorian s
  rw [hweekday]
  exact dayNames_lower name hname

def twoDays : Tree := runAll gregorian asciiGraphemes [firstOfJanuary, secondOfJanuary] emptyTree

theorem twoDays_stems : addedStems gregorian asciiGraphemes [firstOfJanuary, secondOfJanuary] emptyTree =
    ["20250101".toList, "20250102".toList] := by
  decide +kernel

theorem entries_are_one_text_emptyTree : ∃ base,
    twoDays.find? (entryPath "20250101".toList) = some (.file (retitle gregorian "20250101".toList base)) ∧
    twoDays.find? (entryPath "20250102".toList) = some (.file (retitle gregorian "20250102".toList base)) := by
  obtain ⟨d, base, -, -, -, h⟩ := entries_are_one_text gregorian asciiGraphemes weekday_gregorian_lower
    emptyTree_noDangling [firstOfJanuary, secondOfJanuary] twoDays_stems
  have hself : ∀ s d', gregorian.parse s = some d' → d' = s := by
    intro s d' hparse
    simp only [gregorian] at hparse
    split at hparse
    · exact (Option.some.inj hparse).symm
    · cases hparse
  obtain ⟨d₁, hparse₁, hfind₁⟩ := h "20250101".toList (by simp)
  obtain ⟨d₂, hparse₂, hfind₂⟩ := h "20250102".toList (by simp)
  rw [hself _ _ hparse₁] at hfind₁
  rw [hself _ _ hparse₂] at hfind₂
  exact ⟨base, hfind₁, hfind₂⟩

end ChangelogCreator
