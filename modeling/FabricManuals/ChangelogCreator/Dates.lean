import FabricManuals.ChangelogCreator.Content
import FabricManuals.ChangelogCreator.History
import FabricManuals.Lib.Transition

/-! # The dates that created entries show

An entry made from the template shows its date.  A copy shows what its source
shows, but for headings of the template's form and for placeholders. -/
set_option autoImplicit false

namespace ChangelogCreator

open TextFile FileTree FileScript

section Dates
variable {δ : Type} (tx : Timex δ) (g : Graphemes)

def EntryFor (t : Tree) (d : δ) : Prop :=
  ∃ q e, t.find? q = some e ∧ DeckLog q ∧ tx.parse (datePart g q) = some d

structure Shows (t : Tree) (d : δ) (line : Bin) : Prop where
  own : tx.ymd d <:+: line
  only : ∀ d', EntryFor tx g t d' → tx.ymd d' <:+: line → tx.ymd d' = tx.ymd d

structure Dated (t : Tree) (d : δ) (content : Bin) : Prop where
  heading : ∃ line ∈ lines content, IsHeading line
  headings : ∀ line ∈ lines content, IsHeading line → Shows tx g t d line
  date : ∃ line ∈ lines content, IsDateLine line
  dates : ∀ line ∈ lines content, IsDateLine line → Shows tx g t d line

/-- The entries the runs made, as far as `t` has come, are all dated. -/
def AllDated (t : Tree) (stems : List Str) : Prop :=
  ∀ stem ∈ stems, ∃ d content, tx.parse stem = some d ∧
    t.find? (entryPath stem) = some (.file content) ∧ Dated tx g t d content

/-- With the placeholders read, the headings of a source open as the template's do or
show the date, and its date lines show it. -/
structure Fits (t : Tree) (d : δ) (source : Bin) : Prop where
  heading : ∃ line ∈ lines source, IsHeading (reading tx d line)
  headings : ∀ line ∈ lines source, IsHeading (reading tx d line) →
    titleOpening <+: reading tx d line ∨ Shows tx g t d (reading tx d line)
  date : ∃ line ∈ lines source, IsDateLine (reading tx d line)
  dates : ∀ line ∈ lines source, IsDateLine (reading tx d line) → Shows tx g t d (reading tx d line)

def Named (d : δ) (content : Bin) : Prop :=
  ∃ line ∈ lines content, (IsHeading line ∨ IsDateLine line) ∧ tx.ymd d <:+: line

/-- What the tree must be like for the entry for `d`: the latest entry fits, and none made
before has the date already. -/
structure Ready (stems : List Str) (t : Tree) (d : δ) : Prop where
  source : ∀ src bytes, latestIn g t = some src → t.read src = .ok bytes → Fits tx g t d bytes
  unnamed : ∀ stem ∈ stems, ∀ content, t.find? (entryPath stem) = some (.file content) →
    ¬ Named tx d content

/-! ## One file -/

variable {tx g} {t t' : Tree} {stem stem' : Str} {d d' : δ} {content : Bin}

theorem EntryFor.parsed (h : EntryFor tx g t d) : ∃ stem, tx.parse stem = some d := by
  obtain ⟨q, e, -, -, hparse⟩ := h
  exact ⟨_, hparse⟩

theorem isHeading_of_titleOpening {line : Bin} (h : titleOpening <+: line) : IsHeading line := by
  have hopen : ascii "# ".toList <+: titleOpening := by decide
  have hwithin : ascii "Deck Log".toList <:+: titleOpening := by decide
  exact ⟨hopen.trans h, hwithin.trans h.isInfix⟩

theorem not_isDateLine_of_titleOpening {line : Bin} (h : titleOpening <+: line) : ¬ IsDateLine line := by
  obtain ⟨rest, rfl⟩ := h
  intro h
  obtain ⟨rest', heq⟩ := h
  exact absurd (List.cons.inj heq).1 (by decide)

theorem titleOpening_prefix_titleOf (d : δ) : titleOpening <+: titleOf tx d := by
  rw [titleOf, title, List.append_assoc, List.append_assoc, List.append_assoc]
  exact List.prefix_append _ _

theorem shows_title (h : tx.parse stem = some d) : Shows tx g t d (titleOf tx d) where
  own := ymd_infix_title d
  only d' hentry hwithin := by
    obtain ⟨stem', h'⟩ := hentry.parsed
    exact eq_of_infix_title h h' hwithin

theorem shows_dateLine (h : tx.parse stem = some d) : Shows tx g t d (dateLine (tx.ymd d)) where
  own := (List.suffix_append _ _).isInfix
  only d' hentry hwithin := by
    obtain ⟨stem', h'⟩ := hentry.parsed
    exact eq_of_infix_dateLine h h' hwithin

theorem basicTemplate_lines (h : tx.parse stem = some d) :
    ∀ line ∈ lines (basicTemplate (tx.ymd d) (tx.weekday d)),
      line = titleOf tx d ∨ line = dateLine (tx.ymd d) ∨ (¬ IsHeading line ∧ ¬ IsDateLine line) := by
  intro line hline
  rw [lines_basicTemplate h] at hline
  simp only [List.mem_cons, List.not_mem_nil, or_false] at hline
  have hother : ∀ text : Bin, text = [] ∨ text = ascii "- Initial entry.".toList →
      ¬ IsHeading text ∧ ¬ IsDateLine text := by
    rintro text (rfl | rfl) <;> simp only [IsHeading, IsDateLine] <;> decide
  rcases hline with rfl | rfl | rfl | rfl | rfl | rfl
  · exact Or.inl rfl
  · exact Or.inr (Or.inr (hother _ (Or.inl rfl)))
  · exact Or.inr (Or.inl rfl)
  · exact Or.inr (Or.inr (hother _ (Or.inl rfl)))
  · exact Or.inr (Or.inr (hother _ (Or.inr rfl)))
  · exact Or.inr (Or.inr (hother _ (Or.inl rfl)))

theorem dated_basicTemplate (h : tx.parse stem = some d) :
    Dated tx g t d (basicTemplate (tx.ymd d) (tx.weekday d)) := by
  have hdate : IsDateLine (dateLine (tx.ymd d)) :=
    (by decide : ascii "Date:".toList <+: ascii "Date: ".toList).trans (List.prefix_append _ _)
  have hshows : ∀ line ∈ lines (basicTemplate (tx.ymd d) (tx.weekday d)),
      IsHeading line ∨ IsDateLine line → Shows tx g t d line := by
    intro line hline hkind
    rcases basicTemplate_lines h line hline with rfl | rfl | ⟨hheading, hdate⟩
    · exact shows_title h
    · exact shows_dateLine h
    · exact absurd hkind (not_or.mpr ⟨hheading, hdate⟩)
  refine ⟨⟨titleOf tx d, ?_, isHeading_of_titleOpening (titleOpening_prefix_titleOf d)⟩,
    fun line hline hkind => hshows line hline (Or.inl hkind), ⟨dateLine (tx.ymd d), ?_, hdate⟩,
    fun line hline hkind => hshows line hline (Or.inr hkind)⟩
  · simp [lines_basicTemplate h]
  · simp [lines_basicTemplate h]

/-- The line that an updated copy has in the place of a line of its source. -/
def updatedLine (tx : Timex δ) (d : δ) (line : Bin) : Bin :=
  if titleOpening <+: reading tx d line then titleOf tx d else reading tx d line

theorem isHeading_updatedLine (line : Bin) :
    IsHeading (updatedLine tx d line) ↔ IsHeading (reading tx d line) := by
  unfold updatedLine
  split
  · next h =>
      exact iff_of_true (isHeading_of_titleOpening (titleOpening_prefix_titleOf d))
        (isHeading_of_titleOpening h)
  · exact Iff.rfl

theorem isDateLine_updatedLine (line : Bin) :
    IsDateLine (updatedLine tx d line) ↔ IsDateLine (reading tx d line) := by
  unfold updatedLine
  split
  · next h =>
      exact iff_of_false (not_isDateLine_of_titleOpening (titleOpening_prefix_titleOf d))
        (not_isDateLine_of_titleOpening h)
  · exact Iff.rfl

theorem shows_updatedLine (h : tx.parse stem = some d) (line : Bin) :
    Shows tx g t d (updatedLine tx d line) ↔
      titleOpening <+: reading tx d line ∨ Shows tx g t d (reading tx d line) := by
  unfold updatedLine
  split
  · next hopen => exact iff_of_true (shows_title h) (Or.inl hopen)
  · next hopen => exact (or_iff_right hopen).symm

theorem dated_updateContent_iff (h : tx.parse stem = some d) (source : Bin) :
    Dated tx g t d (updateContent (tx.ymd d) (tx.weekday d) source) ↔ Fits tx g t d source := by
  have hlines : lines (updateContent (tx.ymd d) (tx.weekday d) source) =
      (lines source).map (updatedLine tx d) := lines_updateContent h source
  constructor
  · intro h
    obtain ⟨hheading, hheadings, hdates₁, hdates⟩ := h
    simp only [hlines, List.mem_map, exists_exists_and_eq_and, forall_exists_index, and_imp,
      forall_apply_eq_imp_iff₂, isHeading_updatedLine, isDateLine_updatedLine,
      shows_updatedLine h] at hheading hheadings hdates₁ hdates
    refine ⟨hheading, hheadings, hdates₁, fun line hline hkind => ?_⟩
    exact (hdates line hline hkind).resolve_left fun hopen => not_isDateLine_of_titleOpening hopen hkind
  · intro h
    obtain ⟨hheading, hheadings, hdates₁, hdates⟩ := h
    constructor <;>
      simp only [hlines, List.mem_map, exists_exists_and_eq_and, forall_exists_index, and_imp,
        forall_apply_eq_imp_iff₂, isHeading_updatedLine, isDateLine_updatedLine, shows_updatedLine h]
    · exact hheading
    · exact hheadings
    · exact hdates₁
    · exact fun line hline hkind => Or.inr (hdates line hline hkind)

/-! ## One run -/

theorem Grown.entryFor (h : Grown t t') (hentry : EntryFor tx g t' d) : EntryFor tx g t d := by
  obtain ⟨q, e, hfind, hlog, hparse⟩ := hentry
  rcases h.new q e hfind with hold | ⟨-, -, hpattern⟩
  · exact ⟨q, e, hold, hlog, hparse⟩
  · rw [(deckLogPattern_iff q).mpr hlog] at hpattern
    cases hpattern

theorem Creates.entryFor_iff (h : Creates tx g t t' stem d content) :
    EntryFor tx g t' d' ↔ EntryFor tx g t d' ∨ d' = d := by
  constructor
  · intro h
    obtain ⟨q, e, hfind, hlog, hparse⟩ := h
    rcases h.new q e hfind with hold | ⟨-, -, hpattern⟩ | ⟨rfl, -⟩
    · exact Or.inl ⟨q, e, hold, hlog, hparse⟩
    · rw [(deckLogPattern_iff q).mpr hlog] at hpattern
      cases hpattern
    · rw [datePart_entryPath g h.isStem, h.parsed] at hparse
      exact Or.inr (Option.some.inj hparse).symm
  · intro h
    rcases h with ⟨q, e, hfind, hlog, hparse⟩ | rfl
    · exact ⟨q, e, h.kept q e hfind, hlog, hparse⟩
    · refine ⟨entryPath stem, _, h.made, deckLog_entryPath h.isStem, ?_⟩
      rw [datePart_entryPath g h.isStem, h.parsed]

theorem Shows.mono {line : Bin} (h : Shows tx g t d line)
    (hentries : ∀ d', EntryFor tx g t' d' → EntryFor tx g t d' ∨ (tx.ymd d' <:+: line → tx.ymd d' = tx.ymd d)) :
    Shows tx g t' d line where
  own := h.own
  only d' hentry hwithin := by
    rcases hentries d' hentry with hold | hdate
    · exact h.only d' hold hwithin
    · exact hdate hwithin

theorem Dated.mono {content : Bin} (h : Dated tx g t d content)
    (hentries : ∀ d', EntryFor tx g t' d' → EntryFor tx g t d' ∨
      ∀ line ∈ lines content, IsHeading line ∨ IsDateLine line → tx.ymd d' <:+: line → tx.ymd d' = tx.ymd d) :
    Dated tx g t' d content where
  heading := h.heading
  headings line hline hkind := (h.headings line hline hkind).mono fun d' hentry =>
    (hentries d' hentry).imp id fun hdate => hdate line hline (Or.inl hkind)
  date := h.date
  dates line hline hkind := (h.dates line hline hkind).mono fun d' hentry =>
    (hentries d' hentry).imp id fun hdate => hdate line hline (Or.inr hkind)

theorem Grown.allDated {stems : List Str} (h : Grown t t') (hall : AllDated tx g t stems) :
    AllDated tx g t' stems := by
  intro stem hstem
  obtain ⟨d, content, hparse, hfind, hdated⟩ := hall stem hstem
  exact ⟨d, content, hparse, h.kept _ _ hfind, hdated.mono fun d' hentry => Or.inl (h.entryFor hentry)⟩

theorem Creates.newFile_dated_iff (h : Creates tx g t t' stem d content) :
    Dated tx g t' d content ↔
      ∀ src bytes, latestIn g t = some src → t.read src = .ok bytes → Fits tx g t d bytes := by
  have htree : Dated tx g t' d content ↔ Dated tx g t d content := by
    constructor
    · exact fun hdated => hdated.mono fun d' hentry => Or.inl (h.entryFor_iff.mpr (Or.inl hentry))
    · intro hdated
      refine hdated.mono fun d' hentry => (h.entryFor_iff.mp hentry).imp id ?_
      rintro rfl line - - -
      rfl
  rw [htree]
  have hcontent := h.contents
  unfold EntryContent at hcontent
  cases hlatest : latestIn g t with
  | none =>
      rw [hlatest] at hcontent
      subst hcontent
      exact iff_of_true (dated_basicTemplate h.parsed) fun src bytes hsrc => absurd hsrc (by simp)
  | some src =>
      rw [hlatest] at hcontent
      obtain ⟨bytes, hread, rfl⟩ := hcontent
      rw [dated_updateContent_iff h.parsed]
      constructor
      · intro hfits src' bytes' hsrc hread'
        obtain rfl := Option.some.inj hsrc
        rw [hread] at hread'
        obtain rfl := Except.ok.inj hread'
        exact hfits
      · exact fun hfits => hfits src bytes rfl hread

theorem Creates.allDated_iff {stems : List Str} (h : Creates tx g t t' stem d content)
    (hall : AllDated tx g t stems) :
    AllDated tx g t' (stems ++ [stem]) ↔ Ready tx g stems t d := by
  constructor
  · intro hall'
    constructor
    · obtain ⟨d', content', hparse, hfind, hdated⟩ := hall' stem (by simp)
      rw [h.parsed] at hparse
      obtain rfl := Option.some.inj hparse
      rw [h.made] at hfind
      cases hfind
      exact h.newFile_dated_iff.mp hdated
    · rintro old hold content' hfind ⟨line, hline, hkind, hwithin⟩
      obtain ⟨d', content'', hparse, hfind', hdated⟩ := hall' old (List.mem_append_left _ hold)
      rw [h.kept _ _ hfind] at hfind'
      cases hfind'
      have hentry : EntryFor tx g t' d := h.entryFor_iff.mpr (Or.inr rfl)
      have hsame : tx.ymd d = tx.ymd d' := by
        rcases hkind with hkind | hkind
        · exact (hdated.headings line hline hkind).only d hentry hwithin
        · exact (hdated.dates line hline hkind).only d hentry hwithin
      -- so the two entries would be one, and the new one was not there
      obtain rfl := stem_of_ymd h.parsed hparse hsame
      rw [h.newest.fresh] at hfind
      cases hfind
  · intro hready new hnew
    rcases List.mem_append.mp hnew with hold | hnew
    · obtain ⟨d', content', hparse, hfind, hdated⟩ := hall new hold
      refine ⟨d', content', hparse, h.kept _ _ hfind, hdated.mono fun d'' hentry => ?_⟩
      refine (h.entryFor_iff.mp hentry).imp id ?_
      rintro rfl line hline hkind hwithin
      exact absurd ⟨line, hline, hkind, hwithin⟩ (hready.unnamed new hold content' hfind)
    · obtain rfl := List.mem_singleton.mp hnew
      exact ⟨d, content, h.parsed, h.made, h.newFile_dated_iff.mpr hready.source⟩

variable (tx g)

def RunReady (stems : List Str) (t : Tree) (inv : Invocation) : Prop :=
  newFiles t (after tx g inv t) ≠ [] → ∀ d, tx.parse inv.stem = some d → Ready tx g stems t d

theorem after_allDated_iff (inv : Invocation) (ht : NoDangling t) {stems : List Str}
    (hall : AllDated tx g t stems) :
    AllDated tx g (after tx g inv t) (stems ++ (newFiles t (after tx g inv t)).map fun _ => inv.stem) ↔
      RunReady tx g stems t inv := by
  unfold RunReady
  rcases after_cases tx g inv ht with h | ⟨d, content, h⟩
  · rw [h.newFiles, List.map_nil, List.append_nil]
    exact iff_of_true (h.allDated hall) fun hadds => absurd rfl hadds
  · rw [h.newFiles, List.map_singleton, h.allDated_iff hall]
    constructor
    · intro hready _ d' hparse
      rw [h.parsed] at hparse
      obtain rfl := Option.some.inj hparse
      exact hready
    · exact fun hready => hready (List.cons_ne_nil _ _) d h.parsed

/-- Every entry a history makes is dated, in every tree on the way, iff every run of it
finds the tree ready. -/
theorem dated_iff (ht : NoDangling t) (invs : List Invocation) :
    (∀ before, before <+: invs →
      AllDated tx g (runAll tx g before t) (addedStems tx g before t)) ↔
    ∀ before inv rest, invs = before ++ inv :: rest →
      RunReady tx g (addedStems tx g before t) (runAll tx g before t) inv := by
  refine Transition.forall_prefix_iff
    (P := fun before => AllDated tx g (runAll tx g before t) (addedStems tx g before t))
    (Q := fun before inv => RunReady tx g (addedStems tx g before t) (runAll tx g before t) inv)
    (fun stem hstem => absurd hstem List.not_mem_nil) ?_ invs
  intro before inv hall
  rw [addedStems_concat, runAll_concat]
  exact after_allDated_iff tx g inv (runAll_noDangling tx g before ht) hall

end Dates

/-! ## An empty changelog, and one with a heading of its own -/

def emptyTree : Tree := ⟨[], by simp, by simp, by simp⟩

theorem emptyTree_noDangling : NoDangling emptyTree := noDangling_of_entries (by decide)

def firstOfJanuary : Invocation := ⟨["20250101".toList], "20250103".toList⟩
def secondOfJanuary : Invocation := ⟨["20250102".toList], "20250103".toList⟩

/-- A log whose placeholders were never read. -/
def draftTree : Tree where
  entries :=
    [([changelogDir], .dir), ([changelogDir, "2024".toList], .dir),
      (entryPath "20241231".toList,
        .file (ascii "# V-Sekai Deck Log - %%DATE%%\n\nDate: %%DATE%%\n".toList))]
  nodup := by decide
  plain := by decide +kernel
  closed := by decide +kernel

theorem draftTree_noDangling : NoDangling draftTree := noDangling_of_entries (by decide)

theorem entryFor_draftTree {d : Str} (h : EntryFor gregorian asciiGraphemes draftTree d) :
    d = "20241231".toList := by
  obtain ⟨q, e, hfind, hlog, hparse⟩ := h
  have hlogs : ∀ x ∈ draftTree.entries, deckLogPattern x.1 = true →
      gregorian.parse (datePart asciiGraphemes x.1) = some "20241231".toList := by decide +kernel
  have hq : q ≠ [] := by
    obtain ⟨dirs, stem, rfl, -⟩ := hlog
    exact List.cons_ne_nil _ _
  have hday := hlogs _ ((find?_eq_some_iff draftTree hq e).mp hfind) ((deckLogPattern_iff q).mpr hlog)
  exact Option.some.inj (hparse.symm.trans hday)

theorem fits_draft : ∀ src bytes, latestIn asciiGraphemes draftTree = some src → draftTree.read src = .ok bytes →
    Fits gregorian asciiGraphemes draftTree "20250101".toList bytes := by
  intro src bytes hlatest hread
  have hsrc : latestIn asciiGraphemes draftTree = some (entryPath "20241231".toList) := by decide +kernel
  obtain rfl := Option.some.inj (hsrc.symm.trans hlatest)
  have hbytes : draftTree.read (entryPath "20241231".toList) =
      .ok (ascii "# V-Sekai Deck Log - %%DATE%%\n\nDate: %%DATE%%\n".toList) := by decide +kernel
  obtain rfl := Except.ok.inj (hbytes.symm.trans hread)
  have hopens : ∀ line ∈ lines (ascii "# V-Sekai Deck Log - %%DATE%%\n\nDate: %%DATE%%\n".toList),
      IsHeading (reading gregorian "20250101".toList line) →
        titleOpening <+: reading gregorian "20250101".toList line := by decide +kernel
  have hshows : ∀ line ∈ lines (ascii "# V-Sekai Deck Log - %%DATE%%\n\nDate: %%DATE%%\n".toList),
      IsDateLine (reading gregorian "20250101".toList line) →
        gregorian.ymd "20250101".toList <:+: reading gregorian "20250101".toList line ∧
        ¬ gregorian.ymd "20241231".toList <:+: reading gregorian "20250101".toList line := by
    decide +kernel
  refine ⟨by decide +kernel, fun line hline hkind => Or.inl (hopens line hline hkind), by decide +kernel,
    fun line hline hkind => ⟨(hshows line hline hkind).1, fun d' hentry hwithin => ?_⟩⟩
  rw [entryFor_draftTree hentry] at hwithin
  exact absurd hwithin (hshows line hline hkind).2

theorem dated_iff_draftTree :
    AllDated gregorian asciiGraphemes (runAll gregorian asciiGraphemes [firstOfJanuary] draftTree)
      (addedStems gregorian asciiGraphemes [firstOfJanuary] draftTree) := by
  refine (dated_iff gregorian asciiGraphemes draftTree_noDangling [firstOfJanuary]).mpr ?_ _ List.prefix_rfl
  intro before inv rest heq hadds d hparse
  obtain ⟨rfl, hrest⟩ : before = [] ∧ inv = firstOfJanuary := by
    cases before with
    | nil => exact ⟨rfl, (List.cons.inj heq).1.symm⟩
    | cons b before => simp at heq
  subst hrest
  have hday : gregorian.parse firstOfJanuary.stem = some "20250101".toList := by decide +kernel
  obtain rfl := Option.some.inj (hday.symm.trans hparse)
  exact ⟨fits_draft, fun stem hstem => absurd hstem List.not_mem_nil⟩

/-- The title is renewed and the date line is the first day's. -/
def secondEntry : Bin :=
  ascii "# V-Sekai Deck Log - 2025-01-02 (Thursday)\n\nDate: 2025-01-01\n\n- Initial entry.\n".toList

def fabricEntry : Bin :=
  ascii "# V-Sekai Multiplayer Fabric Deck Log ".toList ++ [0xE2, 0x80, 0x94] ++
    ascii " 2026-08-17 (Monday)\n\nDate: 2026-08-17\n".toList

def fabricTree : Tree where
  entries :=
    [([changelogDir], .dir), ([changelogDir, "2026".toList], .dir),
      (entryPath "20260817".toList, .file fabricEntry)]
  nodup := by decide
  plain := by decide
  closed := by decide

/-- From the empty changelog the second entry has the first one's date, and from the
other one the new entry is the old one under a new name. -/
theorem second_entry_keeps_first_date :
    ¬ AllDated gregorian asciiGraphemes
      (runAll gregorian asciiGraphemes [firstOfJanuary, secondOfJanuary] emptyTree)
      (addedStems gregorian asciiGraphemes [firstOfJanuary, secondOfJanuary] emptyTree) ∧
    (after gregorian asciiGraphemes ⟨["20260818".toList], "20260818".toList⟩ fabricTree).find?
      (entryPath "20260818".toList) = some (.file fabricEntry) := by
  refine ⟨fun hall => ?_, by decide +kernel⟩
  have hstem : "20250102".toList ∈
      addedStems gregorian asciiGraphemes [firstOfJanuary, secondOfJanuary] emptyTree := by
    decide +kernel
  have hfile : (runAll gregorian asciiGraphemes [firstOfJanuary, secondOfJanuary] emptyTree).find?
      (entryPath "20250102".toList) = some (.file secondEntry) := by
    decide +kernel
  obtain ⟨d, content, hparse, hfind, hdated⟩ := hall _ hstem
  rw [hfile] at hfind
  cases hfind
  obtain rfl : d = "20250102".toList := by
    have hvalid : gregorian.parse "20250102".toList = some "20250102".toList := by decide +kernel
    rw [hvalid] at hparse
    exact (Option.some.inj hparse).symm
  have hline := hdated.dates (dateLine (ascii "2025-01-01".toList)) (by decide +kernel)
    (by simp only [IsDateLine]; decide)
  exact absurd hline.own (by decide +kernel)

end ChangelogCreator
