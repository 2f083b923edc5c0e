import FabricManuals.ChangelogCreator.Copies
import FabricManuals.ChangelogCreator.TitleText
import FabricManuals.DecisionMeta.Alone
import FabricManuals.DecisionMeta.Title

/-! # Entries as pages of the site

The page filter finds a page by the title it reads in it, and the script writes that
title.  Where the first source opens with a deck-log title, the filter finds every entry
of a history under its own. -/
set_option autoImplicit false

namespace ChangelogCreator

open TextFile Backtrack Lines FileTree FileScript OrderedDict PosixPath DecisionMeta

section Pages
variable {δ : Type} (tx : Timex δ) (g : Graphemes)

def entryKey (stem : Str) : Str := joinSegs [changelogDir, stem.take 4, stem ++ "-deck-log".toList]

variable {tx g} {t T : Tree} {stem stem' : Str} {d d' : δ} {base : Bin}

theorem core_titleText (h : tx.parse stem = some d) : Core (titleText tx d) where
  oneLine hmem := not_mem_titleText h (Or.inl rfl) (List.mem_append_right _ hmem)
  first := ⟨'V', rfl, by decide⟩
  last := ⟨')', List.getLast?_concat, by decide⟩

theorem opens_base {source : Bin} (h : titleOpening <+: source) (date day : Bin) :
    titleOpening <+: fillPlaceholders date day source := by
  obtain ⟨rest, rfl⟩ := h
  have hnot : percent ∉ titleOpening := by decide
  rw [fillPlaceholders, sub_lit_append_left (b := percent) rfl hnot,
    sub_lit_append_left (b := percent) rfl hnot]
  exact List.prefix_append _ _

theorem exists_rest (h : tx.parse stem = some d) (hopens : titleOpening <+: base) :
    ∃ rest, retitle tx d base = titleOf tx d ++ rest ∧ (rest = [] ∨ rest.head? = some newline) := by
  have hfirst := (prefix_firstLine newline titleOpening base (by decide)).mp hopens
  have hlines := lines_retitle h base
  have hjoin : [newline].intercalate (lines (retitle tx d base)) = retitle tx d base :=
    List.intercalate_splitOn newline
  rw [hlines, lines, splitOn_eq_cons newline base, List.map_cons, if_pos hfirst] at hjoin
  generalize ((base.splitOn newline).tail.map fun line =>
    if titleOpening <+: line then titleOf tx d else line) = more at hjoin
  rw [← hjoin]
  cases more with
  | nil => exact ⟨[], by simp, Or.inl rfl⟩
  | cons line more =>
      refine ⟨newline :: [newline].intercalate (line :: more), ?_, Or.inr rfl⟩
      rw [List.intercalate_cons_cons, List.append_assoc]
      rfl

theorem parseTitle_entry (h : tx.parse stem = some d) (hopens : titleOpening <+: base) {text : Str}
    (htext : decode (retitle tx d base) = some text) (fallback : Str) :
    parseTitle text fallback = titleText tx d := by
  obtain ⟨rest, hbytes, hrest⟩ := exists_rest h hopens
  rw [hbytes, ← ascii_titleText h] at htext
  have hsplit := decode_ascii_append (isAscii_titleText h) (not_mem_titleText h (Or.inr rfl)) htext
  have hbreak : decodeIgnore rest = [] ∨ (decodeIgnore rest).head? = some '\n' := by
    rcases hrest with rfl | hnewline
    · exact Or.inl rfl
    · obtain ⟨more, rfl⟩ : ∃ more, rest = newline :: more := by
        cases rest with
        | nil => cases hnewline
        | cons b more => exact ⟨more, by rw [Option.some.inj hnewline]⟩
      exact Or.inr rfl
  have hheading := parseTitle_heading (w := " ".toList) (v := []) (by decide)
    (by decide) (core_titleText h) (by simp) hbreak fallback
  rw [hsplit]
  exact hheading

theorem key_of_path {s : Source} (h : s.path = entryPath stem) : s.key = entryKey stem := by
  have hname : stem ++ deckLogEnding = stem ++ "-deck-log".toList ++ ".md".toList :=
    (congrArg (stem ++ ·) (by decide : deckLogEnding = "-deck-log".toList ++ ".md".toList)).trans
      (List.append_assoc ..).symm
  have hmd : joinSegs (entryPath stem) = entryKey stem ++ ".md".toList := by
    rw [entryPath, hname]
    exact (joinSegs_append_last [changelogDir, stem.take 4] _ _).symm
  rw [Source.key, h, hmd, stripExt_md]

theorem entryKey_injective (h : IsStem stem) (h' : IsStem stem') (heq : entryKey stem = entryKey stem') :
    stem = stem' := by
  have hcancel : stem.take 4 ++ '/' :: (stem ++ "-deck-log".toList) =
      stem'.take 4 ++ '/' :: (stem' ++ "-deck-log".toList) := by
    simpa [entryKey, joinSegs] using heq
  have hlength : (stem.take 4).length = (stem'.take 4).length := by
    rw [List.length_take, List.length_take, h.length, h'.length]
  have hname := (List.cons.inj (List.append_inj_right hcancel hlength)).2
  exact List.append_cancel_right hname

theorem scanned_entryKey (stem : Str) : skippedKey (entryKey stem) = false := by
  simp only [skippedKey, SKIP_DIRS, List.any_cons, List.any_nil, Bool.or_false, Bool.or_eq_false_iff]
  exact ⟨rfl, rfl⟩

theorem slash_mem_entryKey (stem : Str) : '/' ∈ entryKey stem := by
  simp [entryKey, joinSegs]

theorem isPage_entryPath (h : IsStem stem) (hplain : ∀ n ∈ entryPath stem, Plain n) : IsPage (entryPath stem) := by
  obtain ⟨dirs, name, hpath, hvisible⟩ := deckLog_entryPath h
  refine ⟨fun n hn => ⟨hplain n hn, ?_⟩, _, rfl, Or.inl ?_⟩
  · rw [hpath] at hn
    rcases List.mem_cons.mp hn with rfl | hn
    · decide
    · exact hvisible n hn
  · exact (by decide : ".md".toList <:+ deckLogEnding).trans (List.suffix_append _ _)

structure EntryPage (T : Tree) (stem : Str) (P : Page) : Prop where
  mem : P.source ∈ glob T
  path : P.source.path = entryPath stem

theorem EntryPage.key {P : Page} (h : EntryPage T stem P) : P.key = entryKey stem := key_of_path h.path

theorem EntryPage.unique {P Q : Page} (hP : EntryPage T stem P) (hQ : EntryPage T stem Q) : P = Q :=
  Page.eq_of_source (source_of_path hP.mem hQ.mem (hP.path.trans hQ.path.symm))

/-- What has to hold of the site beside the entries of `stems`. -/
structure SiteReady (tx : Timex δ) (T : Tree) (stems : List Str) : Prop where
  decoded : ∀ s ∈ glob T, ¬ s.Breaks
  apart : ∀ P : Page, P.source ∈ glob T → P.Scanned → (∀ stem ∈ stems, P.source.path ≠ entryPath stem) →
    ∀ stem ∈ stems, P.key ≠ entryKey stem ∧ ∀ d, tx.parse stem = some d → P.title ≠ titleText tx d

/-- An entry is a page under the title that the script gave it. -/
theorem exists_entryPage (hdecoded : ∀ s ∈ glob T, ¬ s.Breaks) (h : tx.parse stem = some d)
    (hopens : titleOpening <+: base) (hfile : T.find? (entryPath stem) = some (.file (retitle tx d base))) :
    ∃ P, EntryPage T stem P ∧ P.title = titleText tx d := by
  have hentry := (find?_eq_some_iff T (p := entryPath stem) (by simp [entryPath]) _).mp hfile
  have hpage := isPage_entryPath (tx.parse_exact stem d h) (T.plain _ hentry).2
  let s : Source := ⟨entryPath stem, .ok (retitle tx d base), hpage⟩
  have hmem : s ∈ glob T := mem_glob_of_file hpage hentry
  have hscanned : skippedKey s.key = false := by
    rw [key_of_path (s := s) rfl]
    exact scanned_entryKey stem
  cases hdecode : decode (retitle tx d base) with
  | none => exact absurd ⟨hscanned, by simp [s, textOf, hdecode]⟩ (hdecoded s hmem)
  | some text =>
      let P : Page := ⟨s, text, (textOf_eq_ok ..).mpr ⟨_, rfl, hdecode⟩⟩
      exact ⟨P, ⟨hmem, rfl⟩, parseTitle_entry h hopens hdecode _⟩

def Entered (tx : Timex δ) (T : Tree) (stems : List Str) : Prop :=
  ∀ stem ∈ stems, ∃ d P, tx.parse stem = some d ∧ EntryPage T stem P ∧ P.title = titleText tx d

theorem alone_of_entryPage {stems : List Str} (hready : SiteReady tx T stems) (hentered : Entered tx T stems)
    {order : List Source} (horder : order.Perm (glob T)) (hstem : stem ∈ stems)
    (hparse : tx.parse stem = some d) {P : Page} (hP : EntryPage T stem P) (htitle : P.title = titleText tx d) :
    P.AloneTitled order where
  mem := horder.mem_iff.mpr hP.mem
  scanned := by
    rw [Page.Scanned, hP.key]
    exact scanned_entryKey stem
  unique Q hQ hkey := by
    by_cases hentry : ∃ stem' ∈ stems, Q.source.path = entryPath stem'
    · obtain ⟨stem', hstem', hpath⟩ := hentry
      obtain ⟨d', -, hparse', -, -⟩ := hentered stem' hstem'
      have hQ' : EntryPage T stem' Q := ⟨horder.mem_iff.mp hQ, hpath⟩
      obtain rfl := entryKey_injective (tx.parse_exact _ _ hparse') (tx.parse_exact _ _ hparse)
        (hQ'.key.symm.trans (hkey.trans hP.key))
      exact hQ'.unique hP
    · have hother : ∀ stem' ∈ stems, Q.source.path ≠ entryPath stem' := fun stem' hstem' hpath =>
        hentry ⟨stem', hstem', hpath⟩
      have hscanned : Q.Scanned := by
        rw [Page.Scanned, hkey, hP.key]
        exact scanned_entryKey stem
      exact absurd (hkey.trans hP.key)
        (hready.apart Q (horder.mem_iff.mp hQ) hscanned hother stem hstem).1
  titled := by
    rw [htitle]
    exact List.append_ne_nil_of_right_ne_nil _ (by decide)
  sole Q hQ hscanned hsame := by
    by_cases hentry : ∃ stem' ∈ stems, Q.source.path = entryPath stem'
    · obtain ⟨stem', hstem', hpath⟩ := hentry
      obtain ⟨d', Q', hparse', hQ', htitle'⟩ := hentered stem' hstem'
      have hQ'' : EntryPage T stem' Q := ⟨horder.mem_iff.mp hQ, hpath⟩
      obtain rfl := hQ''.unique hQ'
      obtain rfl := stem_of_titleText hparse' hparse (htitle'.symm.trans (hsame.trans htitle))
      exact hQ'.unique hP
    · have hother : ∀ stem' ∈ stems, Q.source.path ≠ entryPath stem' := fun stem' hstem' hpath =>
        hentry ⟨stem', hstem', hpath⟩
      exact absurd (hsame.trans htitle)
        ((hready.apart Q (horder.mem_iff.mp hQ) hscanned hother stem hstem).2 d hparse)

variable (tx g)

/-- Where the first source opens with a deck-log title, or is the template, all entries do. -/
theorem entered_runAll (hlower : ∀ d, ∃ b ∈ tx.weekday d, IsLower b) (ht : NoDangling t)
    (hopens : ∀ src bytes, latestIn g t = some src → t.read src = .ok bytes → titleOpening <+: bytes)
    (invs : List Invocation) (hdecoded : ∀ s ∈ glob (runAll tx g invs t), ¬ s.Breaks) :
    Entered tx (runAll tx g invs t) (addedStems tx g invs t) := by
  intro stem hstem
  rcases runAll_chain tx g hlower ht invs with ⟨hnone, -⟩ |
    ⟨first, rest, d₁, base, hstems, -, hbase, -, hchain⟩
  · rw [hnone] at hstem
    cases hstem
  · have hbase' : titleOpening <+: base := by
      unfold Base at hbase
      cases hlatest : latestIn g t with
      | none =>
          rw [hlatest] at hbase
          rw [hbase, basicTemplate, List.append_assoc, List.append_assoc]
          exact (titleOpening_prefix_titleOf d₁).trans (List.prefix_append _ _)
      | some src =>
          rw [hlatest] at hbase
          obtain ⟨bytes, hread, rfl⟩ := hbase
          exact opens_base (hopens src bytes hlatest hread) _ _
    obtain ⟨d, hparse, hfind⟩ := hchain.entries stem (hstems ▸ hstem)
    obtain ⟨P, hP, htitle⟩ := exists_entryPage hdecoded hparse hbase' hfind
    exact ⟨d, P, hparse, hP, htitle⟩

/-- After any history the filter finds each entry it made by the entry's own title,
whatever the order of the scan, and relates two of them iff one links to the other. -/
theorem entries_navigate (hlower : ∀ d, ∃ b ∈ tx.weekday d, IsLower b) (ht : NoDangling t)
    (hopens : ∀ src bytes, latestIn g t = some src → t.read src = .ok bytes → titleOpening <+: bytes)
    (invs : List Invocation) (hready : SiteReady tx (runAll tx g invs t) (addedStems tx g invs t))
    (env : Env) {order : List Source} (horder : order.Perm (glob (runAll tx g invs t))) {stem : Str}
    (hstem : stem ∈ addedStems tx g invs t) :
    ∃ d P, tx.parse stem = some d ∧ EntryPage (runAll tx g invs t) stem P ∧ P.title = titleText tx d ∧
      ∃ nav, navigation env order (some (titleText tx d)) = .ok (some nav) ∧ nav.current = entryKey stem ∧
        nav.crumb = breadcrumb (entryKey stem) (titleText tx d) ∧
        ∀ stem' ∈ addedStems tx g invs t, ∀ Q, EntryPage (runAll tx g invs t) stem' Q → stem' ≠ stem →
          (entryKey stem' ∈ nav.related ↔ P.Linked Q) := by
  have hentered := entered_runAll tx g hlower ht hopens invs hready.decoded
  obtain ⟨d, P, hparse, hP, htitle⟩ := hentered stem hstem
  have halone := alone_of_entryPage hready hentered horder hstem hparse hP htitle
  obtain ⟨nav, hnav, hcurrent, hcrumb, hrelated⟩ :=
    halone.navigation (fun s hs => hready.decoded s (horder.mem_iff.mp hs)) env
  rw [htitle] at hnav hcrumb
  rw [hP.key] at hcurrent hcrumb
  refine ⟨d, P, hparse, hP, htitle, nav, hnav, hcurrent, hcrumb, ?_⟩
  intro stem' hstem' Q hQ hne
  obtain ⟨d', Q', hparse', hQ', htitle'⟩ := hentered stem' hstem'
  obtain rfl := hQ.unique hQ'
  have hdiffer : Q ≠ P := by
    rintro rfl
    exact hne (entryKey_injective (tx.parse_exact _ _ hparse') (tx.parse_exact _ _ hparse)
      (hQ.key.symm.trans hP.key))
  have hslash : '/' ∈ Q.key := hQ.key ▸ slash_mem_entryKey stem'
  rw [← hQ.key]
  exact hrelated Q (alone_of_entryPage hready hentered horder hstem' hparse' hQ htitle').toAlone hdiffer hslash

end Pages

theorem twoDays_ready : SiteReady gregorian twoDays ["20250101".toList, "20250102".toList] where
  decoded := by decide +kernel
  apart P hP _ hother := by
    have hpaths : ∀ s ∈ glob twoDays, ∃ stem ∈ ["20250101".toList, "20250102".toList],
        s.path = entryPath stem := by
      decide +kernel
    obtain ⟨stem, hstem, hpath⟩ := hpaths _ hP
    exact absurd hpath (hother stem hstem)

theorem entries_navigate_twoDays :
    ∃ nav, navigation siteEnv (glob twoDays) (some "V-Sekai Deck Log - 2025-01-02 (Thursday)".toList) =
      .ok (some nav) ∧ nav.current = "changelog/2025/20250102-deck-log".toList := by
  have hnone : latestIn asciiGraphemes emptyTree = none := by decide +kernel
  have hready : SiteReady gregorian twoDays
      (addedStems gregorian asciiGraphemes [firstOfJanuary, secondOfJanuary] emptyTree) :=
    twoDays_stems ▸ twoDays_ready
  have hstem : "20250102".toList ∈
      addedStems gregorian asciiGraphemes [firstOfJanuary, secondOfJanuary] emptyTree := by
    rw [twoDays_stems]
    exact List.mem_cons_of_mem _ (List.mem_cons_self ..)
  obtain ⟨d, P, hparse, -, -, nav, hnav, hcurrent, -⟩ :=
    entries_navigate gregorian asciiGraphemes weekday_gregorian_lower emptyTree_noDangling
      (fun src bytes hsrc => by rw [hnone] at hsrc; cases hsrc) [firstOfJanuary, secondOfJanuary] hready
      siteEnv (List.Perm.refl _) hstem
  obtain rfl : d = "20250102".toList := by
    have hvalid : gregorian.parse "20250102".toList = some "20250102".toList := by decide +kernel
    exact Option.some.inj (hparse.symm.trans hvalid)
  have htitle : titleText gregorian "20250102".toList = "V-Sekai Deck Log - 2025-01-02 (Thursday)".toList := by
    decide +kernel
  rw [htitle] at hnav
  exact ⟨nav, hnav, hcurrent⟩

end ChangelogCreator
