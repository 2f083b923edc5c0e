import FabricManuals.ChangelogCreator.Copies
import FabricManuals.ChangelogCreator.TitleText
import FabricManuals.CheckTropes.Names
import FabricManuals.CheckTropes.Triggers
import FabricManuals.Lib.PosixPath
import FabricManuals.Lib.Utf8Lines

/-! # New entries and the tropes gate

A run of the script writes a title, and either the template or what the entry before has.
The gate finds nothing in a title or in the template, in any locale, so it says of the
changelog with the new entries what it said before. -/
set_option autoImplicit false

namespace ChangelogCreator

open TextFile PosixPath Backtrack FileTree FileScript Lines CheckTropes

section Texts
variable {δ : Type} (tx : Timex δ)

def titleLine (d : δ) : Str := "# ".toList ++ titleText tx d

def NamesDays : Prop := ∀ d, ∃ name ∈ dayNames, tx.weekday d = ascii name

/-- A line as it is in a copy: a title gives way to the new one. -/
inductive Retitled (title : Str) : Str → Str → Prop
  | same (line : Str) : Retitled title line line
  | title (rest : Str) : Retitled title ('#' :: rest) title

variable {tx} {stem stem' : Str} {d d' : δ} {L : CheckTropes.Locale}

theorem NamesDays.lower (hdays : NamesDays tx) (d : δ) : ∃ b ∈ tx.weekday d, IsLower b := by
  obtain ⟨name, hname, hweekday⟩ := hdays d
  rw [hweekday]
  exact dayNames_lower name hname

theorem asText_ascii {s : Str} (h : IsAscii s) : asText (ascii s) = s := by
  rw [asText, ascii, List.map_map]
  conv_rhs => rw [← List.map_id s]
  refine List.map_congr_left fun c hc => ?_
  have hval : c.toNat.toUInt8.toNat = c.toNat := by
    rw [Nat.toUInt8, UInt8.toNat_ofNat']
    exact Nat.mod_eq_of_lt (lt_trans (h c hc) (by decide))
  rw [Function.comp_apply, hval, Char.ofNat_toNat, id_eq]

theorem map_fold_digits {s : Str} (h : ∀ c ∈ s, isDigit c = true) : s.map fold = List.replicate s.length '0' := by
  rw [List.eq_replicate_iff]
  refine ⟨List.length_map _, fun c hc => ?_⟩
  obtain ⟨a, ha, rfl⟩ := List.mem_map.mp hc
  rw [fold, if_pos (h a ha)]

theorem map_fold_ymd (h : tx.parse stem = some d) : (asText (tx.ymd d)).map fold = "0000-00-00".toList := by
  have hstem := tx.parse_exact stem d h
  have hdigits : ∀ s : Str, s ⊆ stem → ∀ c ∈ s, isDigit c = true := fun s hs c hc => hstem.digits c (hs hc)
  have hyear : stem.take 4 ⊆ stem := List.take_subset 4 stem
  have hmonth : (stem.drop 4).take 2 ⊆ stem := fun c hc => List.drop_subset 4 stem (List.take_subset 2 _ hc)
  have hday : stem.drop 6 ⊆ stem := List.drop_subset 6 stem
  have hascii : IsAscii (stem.take 4 ++ '-' :: ((stem.drop 4).take 2 ++ '-' :: stem.drop 6)) := by
    intro c hc
    simp only [List.mem_append, List.mem_cons] at hc
    rcases hc with hc | rfl | hc | rfl | hc
    · exact (hstem.ascii c (hyear hc)).1
    · decide
    · exact (hstem.ascii c (hmonth hc)).1
    · decide
    · exact (hstem.ascii c (hday hc)).1
  rw [tx.ymd_parse stem d h, asText_ascii hascii, List.map_append, List.map_cons, List.map_append, List.map_cons,
    map_fold_digits (hdigits _ hyear), map_fold_digits (hdigits _ hmonth), map_fold_digits (hdigits _ hday)]
  simp only [List.length_take, List.length_drop, hstem.length]
  rfl

/-- What folding leaves of a title with this name of a day. -/
def foldedTitle (name : Str) : Str :=
  "# ".toList.map fold ++ ("V-Sekai Deck Log - ".toList.map fold ++ "0000-00-00".toList ++
    " (".toList.map fold ++ name.map fold ++ ")".toList.map fold)

theorem nul_not_mem_of_fold {line : Str} (h : nul ∉ line.map fold) : nul ∉ line := by
  intro hmem
  have hself : fold nul = nul := by decide
  exact h (List.mem_map.mpr ⟨nul, hmem, hself⟩)

theorem dayNames_quiet : ∀ name ∈ dayNames, IsAscii name ∧ nul ∉ foldedTitle name ∧
    ∀ words ∈ triggers, ∀ w ∈ words, ¬ w.toList.map fold <:+: foldedTitle name := by
  decide +kernel

theorem map_fold_parts (o a b c e f : Str) : (o ++ (a ++ b ++ c ++ e ++ f)).map fold =
    o.map fold ++ (a.map fold ++ b.map fold ++ c.map fold ++ e.map fold ++ f.map fold) := by
  simp only [List.map_append]

theorem map_fold_titleLine (h : tx.parse stem = some d) {name : Str} (hascii : IsAscii name)
    (hweekday : tx.weekday d = ascii name) : (titleLine tx d).map fold = foldedTitle name := by
  unfold titleLine titleText foldedTitle
  rw [map_fold_parts, map_fold_ymd h, hweekday, asText_ascii hascii]

theorem quiet_titleLine (h : tx.parse stem = some d) (hdays : NamesDays tx) : Quiet (titleLine tx d) where
  plain := isAscii_titleText h
  clean := by
    obtain ⟨name, hname, hweekday⟩ := hdays d
    obtain ⟨hascii, hclean, -⟩ := dayNames_quiet name hname
    exact nul_not_mem_of_fold (map_fold_titleLine h hascii hweekday ▸ hclean)
  without := by
    obtain ⟨name, hname, hweekday⟩ := hdays d
    obtain ⟨hascii, -, hwithout⟩ := dayNames_quiet name hname
    rw [map_fold_titleLine h hascii hweekday]
    exact hwithout

theorem reads_titleLine (h : tx.parse stem = some d) : Reads (titleOf tx d) (titleLine tx d) := by
  rw [Reads, ← ascii_titleText h]
  exact utf8_ascii _ (isAscii_titleText h)

/-- A title can be told from the bytes of its line. -/
theorem exists_hash {line : Bin} {text : Str} (h : Reads line text) (hopen : titleOpening <+: line) :
    ∃ rest, text = '#' :: rest := by
  obtain ⟨behind, rfl⟩ := hopen
  have hopening : titleOpening = ascii ('#' :: " V-Sekai Deck Log - ".toList) := by decide
  rw [Reads, hopening, utf8_ascii_append _ (by decide)] at h
  cases text with
  | nil => cases h
  | cons c rest => exact ⟨rest, by rw [Option.some.inj (List.cons.inj h).1]⟩

theorem exists_retitled (h : tx.parse stem = some d) {bytes : List Bin} {texts : List Str}
    (hreads : List.Forall₂ Reads bytes texts) :
    ∃ texts', List.Forall₂ Reads
        (bytes.map fun line => if titleOpening <+: line then titleOf tx d else line) texts' ∧
      List.Forall₂ (Retitled (titleLine tx d)) texts texts' := by
  induction hreads with
  | nil => exact ⟨[], .nil, .nil⟩
  | @cons line text bytes texts hline _ ih =>
      obtain ⟨texts', hreads', hretitled⟩ := ih
      rw [List.map_cons]
      by_cases hopen : titleOpening <+: line
      · obtain ⟨rest, rfl⟩ := exists_hash hline hopen
        rw [if_pos hopen]
        exact ⟨titleLine tx d :: texts', .cons (reads_titleLine h) hreads', .cons (.title rest) hretitled⟩
      · rw [if_neg hopen]
        exact ⟨text :: texts', .cons hline hreads', .cons (.same text) hretitled⟩

theorem reads_retitle (h : tx.parse stem = some d) {base : Bin} {text : Str} (hreads : Reads base text) :
    ∃ text', Reads (retitle tx d base) text' ∧
      List.Forall₂ (Retitled (titleLine tx d)) (text.splitOn '\n') (text'.splitOn '\n') := by
  obtain ⟨texts', hlines, hretitled⟩ := exists_retitled h hreads.lines
  have hbytes : (retitle tx d base).splitOn 10 =
      (base.splitOn 10).map fun line => if titleOpening <+: line then titleOf tx d else line := lines_retitle h base
  rw [← hbytes] at hlines
  obtain ⟨text', htext', rfl⟩ := exists_reads_of_lines hlines
  exact ⟨text', htext', hretitled⟩

/-- A copy has no tell that its source does not have, and as many em-dashes. -/
structure NoWorse (L : CheckTropes.Locale) (text text' : Str) : Prop where
  tells : HasTell L text' → HasTell L text
  dashes : emDashes L text' = emDashes L text

theorem nul_not_mem_retitled {title text text' : Str} (hquiet : Quiet title)
    (h : List.Forall₂ (Retitled title) (text.splitOn '\n') (text'.splitOn '\n')) (hnul : nul ∉ text) :
    nul ∉ text' := by
  have hnone : ∀ ls ls' : List Str, List.Forall₂ (Retitled title) ls ls' → (∀ l ∈ ls, nul ∉ l) →
      ∀ l ∈ ls', nul ∉ l := by
    intro ls ls' hls
    induction hls with
    | nil => exact id
    | cons hline _ ih =>
        simp only [List.forall_mem_cons]
        refine fun hall => ⟨?_, ih hall.2⟩
        cases hline with
        | same => exact hall.1
        | title => exact hquiet.clean
  intro hmem
  obtain ⟨l', hl', hin⟩ := (mem_iff_splitOn '\n' (by decide) text').mp hmem
  refine hnone _ _ h (fun l hl hin => ?_) l' hl' hin
  exact hnul ((mem_iff_splitOn '\n' (by decide) text).mpr ⟨l, hl, hin⟩)

theorem isHeading_hash (rest : Str) : isHeading L ('#' :: rest) = true := by
  rw [isHeading, first_isSome_iff]
  have hadvances : Advances ⟨[], '#' :: rest, none⟩ ⟨['#'], rest, none⟩ "#".toList := ⟨rfl, rfl⟩
  refine ⟨⟨['#'], rest, none⟩, ?_⟩
  rw [run_concat_cons, List.mem_flatMap]
  refine ⟨_, (mem_run_look ..).mpr ⟨rfl, rfl⟩, ?_⟩
  rw [run_concat_cons, List.mem_flatMap]
  refine ⟨_, (mem_run_star_set ..).mpr ⟨[], by simp, Advances.refl _, rfl⟩, ?_⟩
  rw [run_concat_cons, List.mem_flatMap]
  exact ⟨_, (mem_run_lit ..).mpr ⟨hadvances, rfl⟩, List.mem_singleton.mpr rfl⟩

theorem awkLine_hash (rest : Str) (st : Bool × Nat) : awkLine L st ('#' :: rest) = st := by
  have hfence : isFence ('#' :: rest) = false := rfl
  rw [awkLine, hfence, isHeading_hash]
  cases st with
  | mk fence total => cases fence <;> rfl

theorem awkLine_retitled {title rest : Str} (htitle : title = '#' :: rest) {line line' : Str}
    (h : Retitled title line line') (st : Bool × Nat) : awkLine L st line = awkLine L st line' := by
  cases h with
  | same => rfl
  | title behind => rw [htitle, awkLine_hash, awkLine_hash]

theorem hasTell_retitled {title : Str} (hquiet : Quiet title) {line line' : Str} (h : Retitled title line line')
    (htell : hasTell L line' = true) : hasTell L line = true := by
  cases h with
  | same => exact htell
  | title behind =>
      rw [hquiet.hasTell] at htell
      cases htell

theorem any_retitled {title : Str} (hquiet : Quiet title) {ls ls' : List Str}
    (h : List.Forall₂ (Retitled title) ls ls') :
    ls'.any (CheckTropes.hasTell L) = true → ls.any (CheckTropes.hasTell L) = true := by
  induction h with
  | nil => exact id
  | cons hline _ ih =>
      rw [List.any_cons, List.any_cons, Bool.or_eq_true, Bool.or_eq_true]
      exact Or.imp (hasTell_retitled hquiet hline) ih

theorem NoWorse.of_retitled {title rest text text' : Str} (htitle : title = '#' :: rest) (hquiet : Quiet title)
    (h : List.Forall₂ (Retitled title) (text.splitOn '\n') (text'.splitOn '\n')) : NoWorse L text text' := by
  have hempty : ∀ line line', Retitled title line line' → (line = [] ↔ line' = []) := by
    rintro _ _ (line | behind)
    · exact Iff.rfl
    · rw [htitle]
      simp
  have hrecords := forall₂_records '\n' hempty h
  have hstep : ∀ st st', st = st' → ∀ line line', Retitled title line line' →
      awkLine L st line = awkLine L st' line' := by
    rintro st _ rfl line line' hline
    exact awkLine_retitled htitle hline st
  refine ⟨any_retitled hquiet hrecords, ?_⟩
  exact (congrArg Prod.snd (List.rel_foldl hstep (rfl : (false, 0) = (false, 0)) hrecords)).symm

theorem foldl_awkLine_plain {ls : List Str} (h : ∀ line ∈ ls, IsAscii line) (st : Bool × Nat) :
    (ls.foldl (awkLine L) st).2 = st.2 := by
  induction ls generalizing st with
  | nil => rfl
  | cons line ls ih =>
      obtain ⟨hline, hls⟩ := List.forall_mem_cons.mp h
      have hnot : '—' ∉ line := fun hmem => absurd (hline _ hmem) (by decide)
      have hnone : dashes L line = 0 := by
        rw [dashes_eq, List.count_eq_zero_of_not_mem hnot, Nat.zero_sub]
      have hkept : (awkLine L st line).2 = st.2 := by
        unfold awkLine
        rw [hnone]
        split_ifs <;> rfl
      rw [List.foldl_cons, ih hls, hkept]

theorem not_flagged_of_quiet {text : Str} (h : ∀ line ∈ text.splitOn '\n', Quiet line) :
    ¬ HasTell L text ∧ emDashes L text = 0 := by
  have hrecords : ∀ line ∈ records '\n' text, Quiet line := by
    intro line hline
    unfold records at hline
    split at hline
    · exact h line (List.mem_of_mem_dropLast hline)
    · exact h line hline
  refine ⟨?_, foldl_awkLine_plain (fun line hline => (hrecords line hline).plain) _⟩
  intro htell
  obtain ⟨line, hline, hfound⟩ := List.any_eq_true.mp htell
  rw [(hrecords line hline).hasTell] at hfound
  cases hfound

theorem quiet_fixed : Quiet [] ∧ Quiet "- Initial entry.".toList :=
  ⟨⟨by decide, by decide, by decide +kernel⟩, ⟨by decide, by decide, by decide +kernel⟩⟩

def dateText (tx : Timex δ) (d : δ) : Str := "Date: ".toList ++ asText (tx.ymd d)

theorem isAscii_dateText (h : tx.parse stem = some d) : IsAscii (dateText tx d) :=
  isAscii_append (by decide) (isAscii_asText (ymd_lt h))

theorem quiet_dateText (h : tx.parse stem = some d) : Quiet (dateText tx d) where
  plain := isAscii_dateText h
  clean := by
    refine nul_not_mem_of_fold ?_
    unfold dateText
    rw [List.map_append, map_fold_ymd h]
    decide
  without := by
    have hall : ∀ words ∈ triggers, ∀ w ∈ words,
        ¬ w.toList.map fold <:+: "Date: ".toList.map fold ++ "0000-00-00".toList := by
      decide +kernel
    unfold dateText
    rw [List.map_append, map_fold_ymd h]
    exact hall

theorem reads_ascii {s : Str} (h : IsAscii s) : Reads (ascii s) s := utf8_ascii s h

theorem reads_dateText (h : tx.parse stem = some d) : Reads (dateLine (tx.ymd d)) (dateText tx d) := by
  have hbytes : ascii (dateText tx d) = dateLine (tx.ymd d) := by
    unfold dateText
    rw [dateLine, ascii, List.map_append, ← ascii, ← ascii, ascii_asText (ymd_lt h)]
  rw [← hbytes]
  exact reads_ascii (isAscii_dateText h)

theorem reads_basicTemplate (h : tx.parse stem = some d) (hdays : NamesDays tx) :
    ∃ text, Reads (basicTemplate (tx.ymd d) (tx.weekday d)) text ∧
      ∀ line ∈ text.splitOn '\n', Quiet line := by
  have hlines : List.Forall₂ Reads (lines (basicTemplate (tx.ymd d) (tx.weekday d)))
      [titleLine tx d, [], dateText tx d, [], "- Initial entry.".toList, []] := by
    have hempty : Reads [] [] := rfl
    rw [lines_basicTemplate h]
    exact .cons (reads_titleLine h) (.cons hempty (.cons (reads_dateText h) (.cons hempty
      (.cons (reads_ascii (by decide)) (.cons hempty .nil)))))
  obtain ⟨text, htext, hsplit⟩ := exists_reads_of_lines hlines
  refine ⟨text, htext, ?_⟩
  rw [hsplit]
  simp only [List.forall_mem_cons, List.not_mem_nil, IsEmpty.forall_iff, implies_true, and_true]
  exact ⟨quiet_titleLine h hdays, quiet_fixed.1, quiet_dateText h, quiet_fixed.1, quiet_fixed.2, quiet_fixed.1⟩

end Texts

section Verdict
variable {δ : Type} (tx : Timex δ) (g : Graphemes)

def entryName (stem : Str) : CheckTropes.Name := ascii (joinSegs (entryPath stem))

/-- Something in the text makes the gate fail. -/
def Flagged (L : CheckTropes.Locale) (text : Str) : Prop := HasTell L text ∨ emDashMax ≤ emDashes L text

/-- The entry to be copied has no placeholder, and it is a text that the gate reads. -/
def SourceTracked (c : Checkout) (t : Tree) : Prop :=
  ∀ src bytes, latestIn g t = some src → t.read src = .ok bytes → Filled bytes ∧
    ∃ name text, name ∈ c.tracked ∧ Verbatim name ∧ isAssignment name = false ∧ Reads bytes text ∧
      nul ∉ text ∧ c.work name = some (utf8 bytes)

/-- `c'` is the checkout `c` with the entries of the runs tracked. -/
structure Recorded (t : Tree) (invs : List Invocation) (c c' : Checkout) : Prop where
  tracked : ∀ name, name ∈ c'.tracked ↔
    name ∈ c.tracked ∨ ∃ stem ∈ addedStems tx g invs t, name = entryName stem
  stray : c'.stray = c.stray
  ahead : c'.ahead = c.ahead
  others : ∀ name, (∀ stem ∈ addedStems tx g invs t, name ≠ entryName stem) → c'.work name = c.work name
  free : ∀ stem ∈ addedStems tx g invs t, c.work (entryName stem) = none
  entries : ∀ stem ∈ addedStems tx g invs t, ∀ bytes,
    (runAll tx g invs t).find? (entryPath stem) = some (.file bytes) →
      c'.work (entryName stem) = some (utf8 bytes)

variable {tx g} {t : Tree} {stem : Str} {d : δ} {L : CheckTropes.Locale} {c c' : Checkout} {invs : List Invocation}

def slash : UInt8 := 0x2F

theorem entryName_eq (stem : Str) : entryName stem =
    ascii changelogDir ++ slash :: (ascii (stem.take 4) ++ slash :: (ascii stem ++ ascii deckLogEnding)) := by
  have hpath : joinSegs (entryPath stem) =
      changelogDir ++ '/' :: (stem.take 4 ++ '/' :: (stem ++ deckLogEnding)) := by
    simp [entryPath, joinSegs]
  rw [entryName, hpath]
  simp only [ascii, List.map_append, List.map_cons]
  rfl

theorem unusual_digit {b : UInt8} (h : IsDigitByte b) : unusual b = false := by
  obtain ⟨hlow, hhigh⟩ := h
  simp only [unusual, Bool.or_eq_false_iff, decide_eq_false_iff_not, beq_eq_false_iff_ne, UInt8.lt_iff_toNat_lt,
    UInt8.le_iff_toNat_le]
  refine ⟨⟨⟨?_, ?_⟩, ?_⟩, ?_⟩
  · exact fun h => absurd (lt_of_le_of_lt hlow h) (by decide)
  · exact fun h => absurd (le_trans h hhigh) (by decide)
  · rintro rfl
    exact absurd hlow (by decide)
  · rintro rfl
    exact absurd hhigh (by decide)

theorem entryName_plain (h : IsStem stem) : Verbatim (entryName stem) ∧ isAssignment (entryName stem) = false := by
  have hdigits : ∀ s : Str, s ⊆ stem → ∀ b ∈ ascii s, unusual b = false := by
    intro s hs b hb
    obtain ⟨c, hc, rfl⟩ := List.mem_map.mp hb
    exact unusual_digit (digit_byte (h.digits c (hs hc)))
  have hfixed : (∀ b ∈ ascii changelogDir, unusual b = false) ∧ unusual slash = false ∧
      ∀ b ∈ ascii deckLogEnding, unusual b = false := by
    decide
  obtain ⟨hdir, hslash, hending⟩ := hfixed
  rw [entryName_eq]
  refine ⟨?_, rfl⟩
  rw [Verbatim, List.any_eq_false]
  intro b hb
  rw [Bool.not_eq_true]
  simp only [List.mem_append, List.mem_cons] at hb
  rcases hb with hb | rfl | hb | rfl | hb | hb
  · exact hdir b hb
  · exact hslash
  · exact hdigits _ (List.take_subset 4 stem) b hb
  · exact hslash
  · exact hdigits stem (List.Subset.refl stem) b hb
  · exact hending b hb

theorem reported_iff {name : CheckTropes.Name} (hverbatim : Verbatim name) (hassign : isAssignment name = false)
    {bytes : Bin} {text : Str} (hreads : Reads bytes text) (hnul : nul ∉ text)
    (hwork : c.work name = some (utf8 bytes)) :
    (scan L c (quotePath name) = true ∨ emDashMax ≤ awkCount L c (quotePath name)) ↔ Flagged L text := by
  rw [show utf8 bytes = text.map some from hreads] at hwork
  rw [flagged_iff, hwork]
  simp [hverbatim, hassign, Flagged, printed_text L c hnul]

theorem Recorded.unmoved (h : Recorded tx g t invs c c') {name : CheckTropes.Name}
    (hname : ∀ stem ∈ addedStems tx g invs t, name ≠ entryName stem) :
    (scan L c' (quotePath name) = true ∨ emDashMax ≤ awkCount L c' (quotePath name)) ↔
      (scan L c (quotePath name) = true ∨ emDashMax ≤ awkCount L c (quotePath name)) := by
  have hother : ∀ stem ∈ addedStems tx g invs t, quotePath name ≠ entryName stem := by
    intro stem hstem
    by_cases hverbatim : Verbatim name
    · rw [quotePath_verbatim hverbatim]
      exact hname stem hstem
    · obtain ⟨rest, hrest⟩ := quotePath_quoted hverbatim
      rw [hrest]
      intro heq
      cases heq
  have hwork := h.others _ hother
  simp only [scan, awkCount, printable, hwork, h.stray, h.ahead]

theorem NoWorse.flagged {source text : Str} (h : NoWorse L source text) (hflag : Flagged L text) : Flagged L source :=
  hflag.imp h.tells fun hdashes => h.dashes ▸ hdashes

/-- What all entries are copies of is a text, and one that the gate has passed. -/
theorem exists_source (L : CheckTropes.Locale) (hdays : NamesDays tx) (hsource : SourceTracked g c t) {base : Bin}
    (hparse : tx.parse stem = some d) (hbase : Base tx g t d base) :
    ∃ source, Reads base source ∧ nul ∉ source ∧ (Flagged L source → exitStatus L c = 1) := by
  unfold Base at hbase
  cases hlatest : latestIn g t with
  | none =>
      rw [hlatest] at hbase
      obtain ⟨source, hreads, hquiet⟩ := reads_basicTemplate hparse hdays
      obtain ⟨htell, hdashes⟩ := not_flagged_of_quiet (L := L) hquiet
      have hnul : nul ∉ source := by
        intro hmem
        obtain ⟨line, hline, hin⟩ := (mem_iff_splitOn '\n' (by decide) source).mp hmem
        exact (hquiet line hline).clean hin
      refine ⟨source, hbase ▸ hreads, hnul, fun hflag => ?_⟩
      rcases hflag with hflag | hflag
      · exact absurd hflag htell
      · rw [hdashes] at hflag
        exact absurd hflag (by decide)
  | some src =>
      rw [hlatest] at hbase
      obtain ⟨bytes, hread, rfl⟩ := hbase
      obtain ⟨hfilled, name, source, hname, hverbatim, hassign, hreads, hnul, hwork⟩ :=
        hsource src bytes hlatest hread
      rw [hfilled.fillPlaceholders]
      refine ⟨source, hreads, hnul, fun hflag => (exitStatus_eq_one_iff ..).mpr ⟨name, hname, ?_⟩⟩
      exact (reported_iff hverbatim hassign hreads hnul hwork).mpr hflag

theorem Recorded.reported (h : Recorded tx g t invs c c') (hdays : NamesDays tx) (hsource : SourceTracked g c t)
    {first : Str} {d' : δ} {base : Bin} (hfirst : tx.parse first = some d) (hbase : Base tx g t d base)
    (hstem : stem ∈ addedStems tx g invs t) (hparse : tx.parse stem = some d')
    (hfind : (runAll tx g invs t).find? (entryPath stem) = some (.file (retitle tx d' base)))
    (hreported : scan L c' (quotePath (entryName stem)) = true ∨
      emDashMax ≤ awkCount L c' (quotePath (entryName stem))) : exitStatus L c = 1 := by
  obtain ⟨hverbatim, hassign⟩ := entryName_plain (tx.parse_exact stem d' hparse)
  obtain ⟨source, hreads, hnul, hfails⟩ := exists_source L hdays hsource hfirst hbase
  obtain ⟨copied, hcopied, hretitled⟩ := reads_retitle hparse hreads
  have hquiet := quiet_titleLine hparse hdays
  have htitle : titleLine tx d' = '#' :: ' ' :: titleText tx d' := rfl
  have hworse : NoWorse L source copied := .of_retitled htitle hquiet hretitled
  have hnul' := nul_not_mem_retitled hquiet hretitled hnul
  have hwork := h.entries stem hstem _ hfind
  exact hfails (hworse.flagged ((reported_iff hverbatim hassign hcopied hnul' hwork).mp hreported))

theorem exitStatus_or (L : CheckTropes.Locale) (c : Checkout) : exitStatus L c = 0 ∨ exitStatus L c = 1 := by
  unfold exitStatus
  split_ifs <;> simp

variable (tx g)

/-- Whatever runs of the script there were, the gate comes to the verdict it had. -/
theorem verdict_unmoved (L : CheckTropes.Locale) (hdays : NamesDays tx) (ht : NoDangling t) (invs : List Invocation)
    (hsource : SourceTracked g c t) (h : Recorded tx g t invs c c') : exitStatus L c' = exitStatus L c := by
  have hcopied : ∀ stem ∈ addedStems tx g invs t, (scan L c' (quotePath (entryName stem)) = true ∨
      emDashMax ≤ awkCount L c' (quotePath (entryName stem))) → exitStatus L c = 1 := by
    intro stem hstem hreported
    rcases runAll_chain tx g hdays.lower ht invs with ⟨hnone, -⟩ |
      ⟨first, rest, d, base, hstems, hfirst, hbase, -, hchain⟩
    · rw [hnone] at hstem
      cases hstem
    · obtain ⟨d', hparse, hfind⟩ := hchain.entries stem (hstems ▸ hstem)
      exact h.reported hdays hsource hfirst hbase hstem hparse hfind hreported
  have hsame : exitStatus L c' = 1 ↔ exitStatus L c = 1 := by
    constructor
    · intro hexit
      obtain ⟨name, hname, hreported⟩ := (exitStatus_eq_one_iff ..).mp hexit
      by_cases hentry : ∃ stem ∈ addedStems tx g invs t, name = entryName stem
      · obtain ⟨stem, hstem, rfl⟩ := hentry
        exact hcopied stem hstem hreported
      · have hother : ∀ stem ∈ addedStems tx g invs t, name ≠ entryName stem := fun stem hstem heq =>
          hentry ⟨stem, hstem, heq⟩
        exact (exitStatus_eq_one_iff ..).mpr ⟨name, ((h.tracked name).mp hname).resolve_right hentry,
          (h.unmoved hother).mp hreported⟩
    · intro hexit
      obtain ⟨name, hname, hreported⟩ := (exitStatus_eq_one_iff ..).mp hexit
      have hother : ∀ stem ∈ addedStems tx g invs t, name ≠ entryName stem := by
        rintro stem hstem rfl
        have hpresent := c.present _ hname
        rw [h.free stem hstem] at hpresent
        cases hpresent
      exact (exitStatus_eq_one_iff ..).mpr ⟨name, (h.tracked name).mpr (Or.inl hname), (h.unmoved hother).mpr hreported⟩
  rcases exitStatus_or L c' with h' | h'
  · rcases exitStatus_or L c with h | h
    · rw [h', h]
    · rw [hsame.mpr h, h]
  · rw [h', hsame.mp h']

end Verdict

def lastYearText : Str := "# V-Sekai Deck Log - 2024-12-31 (Tuesday)\n\n- Camp moved.\n".toList

def lastYearTree : Tree where
  entries := [([changelogDir], .dir), ([changelogDir, "2024".toList], .dir),
    (entryPath "20241231".toList, .file (ascii lastYearText))]
  nodup := by decide
  plain := by decide +kernel
  closed := by decide +kernel

def lastYearName : CheckTropes.Name := entryName "20241231".toList

def readmeName : CheckTropes.Name := ascii "README.md".toList

def lastYear : Checkout where
  tracked := [readmeName, lastYearName]
  work name := if name = lastYearName then some (utf8 (ascii lastYearText)) else
    if name = readmeName then some ("One line.\n".toList.map some) else none
  stray _ := 0
  ahead _ := 0
  present := by decide +kernel

def newYearStem : Str := "20250101".toList

def newYearTree : Tree := runAll gregorian asciiGraphemes [firstOfJanuary] lastYearTree

def newYearBytes : Bin := ((newYearTree.read (entryPath newYearStem)).toOption).getD []

def thisYear : Checkout where
  tracked := lastYear.tracked ++ [entryName newYearStem]
  work name := if name = entryName newYearStem then some (utf8 newYearBytes) else lastYear.work name
  stray _ := 0
  ahead _ := 0
  present := by decide +kernel

theorem newYear_stems : addedStems gregorian asciiGraphemes [firstOfJanuary] lastYearTree = [newYearStem] := by
  decide +kernel

theorem recorded_thisYear : Recorded gregorian asciiGraphemes lastYearTree [firstOfJanuary] lastYear thisYear where
  tracked name := by
    rw [newYear_stems]
    simp [thisYear]
  stray := rfl
  ahead := rfl
  others name h := by
    rw [newYear_stems] at h
    exact if_neg (h newYearStem (List.mem_singleton.mpr rfl))
  free := by
    rw [newYear_stems]
    decide +kernel
  entries stem hstem bytes hfind := by
    rw [newYear_stems] at hstem
    obtain rfl := List.mem_singleton.mp hstem
    have hbytes : newYearBytes = bytes := by
      have hread : newYearTree.read (entryPath newYearStem) = .ok bytes := (read_eq_ok_iff ..).mpr hfind
      rw [newYearBytes, hread]
      rfl
    subst hbytes
    simp [thisYear]

theorem lastYear_tracked : SourceTracked asciiGraphemes lastYear lastYearTree := by
  intro src bytes hlatest hread
  have hsrc : latestIn asciiGraphemes lastYearTree = some (entryPath "20241231".toList) := by decide +kernel
  obtain rfl := Option.some.inj (hsrc.symm.trans hlatest)
  have hascii : lastYearTree.read (entryPath "20241231".toList) = .ok (ascii lastYearText) := by decide +kernel
  obtain rfl := Except.ok.inj (hascii.symm.trans hread)
  refine ⟨⟨by decide +kernel, by decide +kernel⟩, lastYearName, lastYearText, by decide +kernel, by decide +kernel,
    by decide +kernel, reads_ascii (by decide +kernel), by decide +kernel, by decide +kernel⟩

theorem verdict_unmoved_lastYear : exitStatus .posix thisYear = 0 := by
  have hdangling : NoDangling lastYearTree := noDangling_of_entries (by decide)
  have hclean : exitStatus .posix lastYear = 0 := by decide +kernel
  exact (verdict_unmoved gregorian asciiGraphemes .posix weekday_gregorian hdangling [firstOfJanuary]
    lastYear_tracked recorded_thisYear).trans hclean

end ChangelogCreator
