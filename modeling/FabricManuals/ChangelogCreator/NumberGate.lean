import FabricManuals.ChangelogCreator.TropesGate
import FabricManuals.CheckRfdNumbers.CitationLines
import FabricManuals.CheckRfdNumbers.Relocation
import FabricManuals.Lib.Footprint

/-! # New entries and the number gate

The script writes below `changelog` only, so the directories of the RFDs, their headers,
the links between them and the alias table are as before.  What is left of the gate is
the walk for old citations, and there an entry has only what its source has. -/
set_option autoImplicit false

namespace ChangelogCreator

open TextFile PosixPath Backtrack FileTree FileScript Lines CheckRfdNumbers

def InChangelog (p : Path) : Prop := p.head? = some changelogDir

/-! ## Where the script writes -/

section Writes
variable {δ : Type} (tx : Timex δ) (g : Graphemes)

theorem inChangelog_of_deckLog {p : Path} (h : deckLogPattern p = true) : InChangelog p := by
  obtain ⟨dirs, stem, rfl, -⟩ := (deckLogPattern_iff p).mp h
  rfl

theorem stays_findLatestDeckLogFile :
    Stays InChangelog (fun o => ∀ f, o = some f → InChangelog f) (findLatestDeckLogFile g) := by
  intro files hfiles
  cases files with
  | nil =>
      rintro f hf
      cases hf
  | cons file files =>
      intro f hf
      exact inChangelog_of_deckLog (hfiles f (latestOf_eq_some g hf).1)

theorem stays_handleNewFileCreation {p : Path} (hp : InChangelog p) (date day : Bin) :
    Stays InChangelog (fun _ => True) (handleNewFileCreation g p date day) := by
  refine (stays_findLatestDeckLogFile g).bind fun o _ => ?_
  cases o with
  | none => exact ⟨hp, trivial⟩
  | some src => exact ⟨hp, fun _ => ⟨hp, trivial⟩⟩

theorem inChangelog_entry (dir name : Name) : InChangelog ([changelogDir, dir] ++ [name]) := rfl

theorem stays_createChangelogEntry (stem : Str) :
    Stays InChangelog (fun _ => True) (createChangelogEntry tx g stem) := by
  have hbelow : ∀ q, q ≠ [] → q <+: [changelogDir, g.slice stem 4] → InChangelog q := by
    intro q hq hpre
    obtain ⟨behind, heq⟩ := hpre
    cases q with
    | nil => exact absurd rfl hq
    | cons top q => rw [(List.cons.inj heq).1]; rfl
  unfold createChangelogEntry
  cases tx.parse stem with
  | none => trivial
  | some date =>
      refine ⟨hbelow, fun present => ?_⟩
      cases present with
      | true => exact ⟨rfl, trivial⟩
      | false =>
          refine (stays_findLatestDeckLogFile g).bind fun o ho => ?_
          cases o with
          | none => exact stays_handleNewFileCreation g (inChangelog_entry ..) _ _
          | some src =>
              show Stays InChangelog (fun _ => True) (if datePart g src < stem then _ else _)
              split
              · exact stays_handleNewFileCreation g (inChangelog_entry ..) _ _
              · exact ⟨ho src rfl, trivial⟩

theorem find?_after (inv : Invocation) (t : Tree) {p : Path} (hp : ¬ InChangelog p) :
    (after tx g inv t).find? p = t.find? p := by
  have hmain : Stays InChangelog (fun _ => True) (main tx g inv.today inv.args) := by
    rw [main]
    cases validateDateFormat tx (getDateStem inv.today inv.args) with
    | error reason => exact trivial
    | ok _ =>
        refine (stays_createChangelogEntry tx g _).bind fun _ _ => ?_
        exact trivial
  exact hmain.find?_exec hp t

theorem find?_runAll (invs : List Invocation) (t : Tree) {p : Path} (hp : ¬ InChangelog p) :
    (runAll tx g invs t).find? p = t.find? p := by
  induction invs generalizing t with
  | nil => rfl
  | cons inv rest ih => exact (ih (after tx g inv t)).trans (find?_after tx g inv t hp)

theorem find?_runAll_cases {t : Tree} (ht : NoDangling t) (invs : List Invocation) {p : Path} {bytes : Bin} :
    (runAll tx g invs t).find? p = some (.file bytes) →
      t.find? p = some (.file bytes) ∨ ∃ stem ∈ addedStems tx g invs t, p = entryPath stem := by
  induction invs using List.reverseRecOn with
  | nil => exact Or.inl
  | append_singleton before inv ih =>
      intro hfind
      rw [runAll_concat] at hfind
      rw [addedStems_concat, runAll_concat]
      have hbefore : (runAll tx g before t).find? p = some (.file bytes) → t.find? p = some (.file bytes) ∨
          ∃ stem ∈ addedStems tx g before t ++ (newFiles (runAll tx g before t)
            (after tx g inv (runAll tx g before t))).map (fun _ => inv.stem), p = entryPath stem := by
        intro hold
        refine (ih hold).imp id ?_
        rintro ⟨stem, hstem, rfl⟩
        exact ⟨stem, List.mem_append_left _ hstem, rfl⟩
      rcases after_cases tx g inv (runAll_noDangling tx g before ht) with h | ⟨d, content, h⟩
      · rcases h.new p _ hfind with hold | ⟨-, hdir, -⟩
        · exact hbefore hold
        · cases hdir
      · rcases h.new p _ hfind with hold | ⟨-, hdir, -⟩ | ⟨rfl, -⟩
        · exact hbefore hold
        · cases hdir
        · exact Or.inr ⟨inv.stem, by simp [h.newFiles], rfl⟩

theorem runAll_kept {t : Tree} (ht : NoDangling t) (invs : List Invocation) {p : Path} {e : Entry}
    (h : t.find? p = some e) : (runAll tx g invs t).find? p = some e := by
  induction invs generalizing t with
  | nil => exact h
  | cons inv rest ih =>
      refine ih (after_noDangling tx g inv ht) ?_
      rcases after_cases tx g inv ht with hrun | ⟨d, content, hrun⟩
      · exact hrun.kept p e h
      · exact hrun.kept p e h

end Writes

section Elsewhere
variable {U : Unicode} {c c' : CheckRfdNumbers.Checkout}

/-- The trees of the two checkouts differ below `changelog` only. -/
structure AlikeElsewhere (c c' : CheckRfdNumbers.Checkout) : Prop where
  root : c'.root = c.root
  me : c'.me = c.me
  same : ∀ p, ¬ InChangelog p → c'.tree.find? p = c.tree.find? p

theorem rfd_outside (rest : Path) : ¬ InChangelog (rfd :: rest) := fun hin =>
  absurd (Option.some.inj hin) (by decide)

theorem aliasesMd_outside : ¬ InChangelog [aliasesMd] := fun hin =>
  absurd (Option.some.inj hin) (by decide)

section Alike
variable (h : AlikeElsewhere c c')
include h

theorem AlikeElsewhere.isdir {p : Path} (hp : ¬ InChangelog p) : c'.tree.isdir p = c.tree.isdir p := by
  rw [Tree.isdir, Tree.isdir, h.same p hp]

theorem AlikeElsewhere.exists {p : Path} (hp : ¬ InChangelog p) : c'.tree.exists p = c.tree.exists p := by
  rw [Tree.exists, Tree.exists, h.same p hp]

theorem AlikeElsewhere.read {p : Path} (hp : ¬ InChangelog p) : c'.tree.read p = c.tree.read p := by
  rw [Tree.read, Tree.read, h.same p hp]

theorem AlikeElsewhere.candidates : candidates c'.tree = candidates c.tree := by
  have hsame : ∀ d, c'.tree.isdir [rfd, d] = c.tree.isdir [rfd, d] := fun d => h.isdir (rfd_outside [d])
  have hlisted : (c'.tree.listdir [rfd]).Perm (c.tree.listdir [rfd]) := by
    refine (List.perm_ext_iff_of_nodup (nodup_listdir _ _) (nodup_listdir _ _)).mpr fun d => ?_
    rw [mem_listdir, mem_listdir]
    refine exists_congr fun e => ?_
    rw [← find?_file, ← find?_file]
    exact (h.same _ (rfd_outside [d])).symm ▸ Iff.rfl
  unfold CheckRfdNumbers.candidates
  simp only [hsame]
  exact sorted_perm (hlisted.filter _)

theorem AlikeElsewhere.clean (d : FileTree.Name) : Clean c'.tree d ↔ Clean c.tree d := by
  have hexists : c'.tree.exists (indexOf d) = c.tree.exists (indexOf d) := h.exists (rfd_outside _)
  have hread : readIgnore c'.tree (indexOf d) = readIgnore c.tree (indexOf d) := by
    have hbytes : c'.tree.read (indexOf d) = c.tree.read (indexOf d) := h.read (rfd_outside _)
    rw [readIgnore, readIgnore, hbytes]
  constructor
  · intro hclean
    exact ⟨hclean.named, hclean.org, hexists ▸ hclean.present, hread ▸ hclean.header⟩
  · intro hclean
    exact ⟨hclean.named, hclean.org, hexists.symm ▸ hclean.present, hread.symm ▸ hclean.header⟩

theorem AlikeElsewhere.linkPass (hrfd : c.tree.isdir [rfd] = true) :
    linkPass c' = .ok [] ↔ linkPass c = .ok [] := by
  rw [linkPass_eq_nil_iff c hrfd, linkPass_eq_nil_iff c' (by rw [h.isdir (rfd_outside []), hrfd])]
  have hsame : ∀ cur f, [rfd] <+: cur → c'.tree.find? (cur ++ [f]) = c.tree.find? (cur ++ [f]) ∧
      c'.tree.read (cur ++ [f]) = c.tree.read (cur ++ [f]) := by
    rintro _ f ⟨cur, rfl⟩
    exact ⟨h.same _ (rfd_outside _), h.read (rfd_outside _)⟩
  have hdirs : ∀ name, c'.tree.isdir [rfd, name] = c.tree.isdir [rfd, name] := fun name =>
    h.isdir (rfd_outside [name])
  simp only [← find?_file, hdirs]
  refine forall_congr' fun cur => forall_congr' fun f => forall_congr' fun e => imp_congr_right fun hcur => ?_
  obtain ⟨hfind, hread⟩ := hsame cur f hcur
  rw [hfind, hread]

theorem AlikeElsewhere.aliasPass (seen : OrderedDict.Dict Str FileTree.Name) :
    aliasPass c'.tree seen = aliasPass c.tree seen := by
  unfold CheckRfdNumbers.aliasPass
  rw [readStrict, readStrict, h.exists aliasesMd_outside, h.read aliasesMd_outside]

theorem AlikeElsewhere.silent_iff (hcite : citePass U c' = [] ↔ citePass U c = []) :
    check U c' = .ok [] ↔ check U c = .ok [] := by
  rw [check_eq_nil_iff, check_eq_nil_iff, h.isdir (rfd_outside []), h.candidates, h.aliasPass, hcite]
  simp only [h.clean]
  refine and_congr_right fun hrfd => ?_
  rw [h.linkPass hrfd]

end Alike
end Elsewhere

/-! ## What an entry cites -/

section Entries
variable {δ : Type} {tx : Timex δ} {g : Graphemes} {U : Unicode} {stem : Str} {d : δ} {num : Str} {base : Bin}

theorem not_cites_of_not_mem {text : Str} (h : 'R' ∉ text) : ¬ Cites U text num := by
  rintro ⟨pre, post, rfl, -⟩
  exact h (by simp)

theorem decodeIgnore_of_reads {line : Bin} {text : Str} (h : Reads line text) :
    decodeIgnore line = universalNewlines text := by
  rw [decodeIgnore, show utf8 line = text.map some from h]
  simp

theorem not_cites_line {line : Bin} {text : Str} (h : Reads line text) (hreturn : '\r' ∉ text) (hr : 'R' ∉ text) :
    ¬ Cites U (decodeIgnore line) num := by
  have hsame := universalNewlines_append text hreturn []
  rw [List.append_nil] at hsame
  rw [decodeIgnore_of_reads h, hsame, show universalNewlines [] = [] from rfl, List.append_nil]
  exact not_cites_of_not_mem hr

theorem dayNames_without_r : ∀ name ∈ dayNames, IsAscii name ∧ 'R' ∉ name := by
  decide

theorem not_mem_ymdText (h : tx.parse stem = some d) {c : Char} (hdash : c.toNat.toUInt8 ≠ 45)
    (hdigit : ¬ IsDigitByte c.toNat.toUInt8) : c ∉ asText (tx.ymd d) := by
  intro hmem
  have hbyte := mem_ascii hmem
  rw [ascii_asText (ymd_lt h)] at hbyte
  exact not_mem_ymd h hdash hdigit hbyte

theorem not_cites_titleOf (h : tx.parse stem = some d) (hdays : NamesDays tx) :
    ¬ Cites U (decodeIgnore (titleOf tx d)) num := by
  refine not_cites_line (reads_titleLine h) (not_mem_titleText h (Or.inr rfl)) ?_
  obtain ⟨name, hname, hweekday⟩ := hdays d
  obtain ⟨hascii, hr⟩ := dayNames_without_r name hname
  unfold titleLine titleText
  rw [hweekday, asText_ascii hascii]
  simp only [List.mem_append, not_or]
  exact ⟨by decide, ⟨⟨⟨by decide, not_mem_ymdText h (by decide) (by decide)⟩, by decide⟩, hr⟩, by decide⟩

theorem cites_retitle (h : tx.parse stem = some d) (hdays : NamesDays tx)
    (hcites : Cites U (decodeIgnore (retitle tx d base)) num) : Cites U (decodeIgnore base) num := by
  obtain ⟨line, hline, hcited⟩ := (cites_decodeIgnore_iff _).mp hcites
  have hbytes : (retitle tx d base).splitOn 10 =
      (base.splitOn 10).map fun line => if titleOpening <+: line then titleOf tx d else line := lines_retitle h base
  rw [hbytes, List.mem_map] at hline
  obtain ⟨source, hsource, rfl⟩ := hline
  split at hcited
  · exact absurd hcited (not_cites_titleOf h hdays)
  · exact (cites_decodeIgnore_iff _).mpr ⟨source, hsource, hcited⟩

theorem not_cites_basicTemplate (h : tx.parse stem = some d) (hdays : NamesDays tx) :
    ¬ Cites U (decodeIgnore (basicTemplate (tx.ymd d) (tx.weekday d))) num := by
  intro hcites
  obtain ⟨line, hline, hcited⟩ := (cites_decodeIgnore_iff _).mp hcites
  have hfixed : ∀ s : Str, IsAscii s → '\r' ∉ s → 'R' ∉ s → ¬ Cites U (decodeIgnore (ascii s)) num :=
    fun s hs hreturn hr => not_cites_line (reads_ascii hs) hreturn hr
  have hdate : ¬ Cites U (decodeIgnore (dateLine (tx.ymd d))) num := by
    refine not_cites_line (reads_dateText h) ?_ ?_
    · rw [dateText, List.mem_append, not_or]
      exact ⟨by decide, not_mem_ymdText h (by decide) (by decide)⟩
    · rw [dateText, List.mem_append, not_or]
      exact ⟨by decide, not_mem_ymdText h (by decide) (by decide)⟩
  have hlines : line ∈ lines (basicTemplate (tx.ymd d) (tx.weekday d)) := hline
  rw [lines_basicTemplate h] at hlines
  simp only [List.mem_cons, List.not_mem_nil, or_false] at hlines
  have hempty := hfixed [] (by decide) (by decide) (by decide)
  rcases hlines with rfl | rfl | rfl | rfl | rfl | rfl
  · exact not_cites_titleOf h hdays hcited
  · exact hempty hcited
  · exact hdate hcited
  · exact hempty hcited
  · exact hfixed _ (by decide) (by decide) (by decide) hcited
  · exact hempty hcited

/-- The entry to be copied has no placeholder, and the citation walk reads it. -/
def SourceWalked (g : Graphemes) (c : CheckRfdNumbers.Checkout) : Prop :=
  ∀ src bytes, latestIn g c.tree = some src → c.tree.read src = .ok bytes →
    Filled bytes ∧ skipped (c.root ++ src.dropLast) = false ∧ c.root ++ src ≠ c.me

/-- What all entries are copies of cites nothing where the gate found nothing cited. -/
theorem not_cites_base {c : CheckRfdNumbers.Checkout} (hsource : SourceWalked g c) (hdays : NamesDays tx)
    (hparse : tx.parse stem = some d) (hbase : Base tx g c.tree d base) (hsilent : citePass U c = []) :
    ¬ Cites U (decodeIgnore base) num := by
  unfold Base at hbase
  cases hlatest : latestIn g c.tree with
  | none =>
      rw [hlatest] at hbase
      rw [hbase]
      exact not_cites_basicTemplate hparse hdays
  | some src =>
      rw [hlatest] at hbase
      obtain ⟨bytes, hread, rfl⟩ := hbase
      obtain ⟨hfilled, hwalked, hme⟩ := hsource src bytes hlatest hread
      have hpattern := ((mem_wildcardIn ..).mp (latestOf_eq_some g hlatest).1).2
      obtain ⟨dirs, name, rfl, -⟩ := (deckLogPattern_iff src).mp hpattern
      have hname : name ++ deckLogEnding ≠ aliasesMd := by
        intro heq
        have hending : deckLogEnding <:+ aliasesMd := ⟨name, heq⟩
        exact absurd hending (by decide)
      rw [← List.cons_append] at hread hwalked hme
      rw [List.dropLast_concat] at hwalked
      rw [hfilled.fillPlaceholders]
      exact (citePass_eq_nil_iff U c).mp hsilent _ _ _ ((find?_file ..).mp ((read_eq_ok_iff ..).mp hread)) hwalked
        hname hme num

end Entries

section Verdict
variable {δ : Type} (tx : Timex δ) (g : Graphemes) {c : CheckRfdNumbers.Checkout}

def afterRuns (invs : List Invocation) (c : CheckRfdNumbers.Checkout) : CheckRfdNumbers.Checkout :=
  ⟨c.root, c.me, runAll tx g invs c.tree⟩

theorem citePass_afterRuns (U : Unicode) (hdays : NamesDays tx) (ht : NoDangling c.tree) (invs : List Invocation)
    (hsource : SourceWalked g c) : citePass U (afterRuns tx g invs c) = [] ↔ citePass U c = [] := by
  constructor
  · intro hsilent
    refine (citePass_eq_nil_iff U c).mpr fun cur f bytes hmem => ?_
    have hkept := runAll_kept tx g ht invs ((find?_file c.tree).mpr hmem)
    exact (citePass_eq_nil_iff U _).mp hsilent cur f bytes ((find?_file (runAll tx g invs c.tree)).mp hkept)
  · intro hsilent
    -- a file that the walk meets now was there before, or is a copy of a text that cites nothing
    refine (citePass_eq_nil_iff U _).mpr fun cur f bytes hmem hwalked hname hme num => ?_
    have hfind := (find?_file (runAll tx g invs c.tree)).mpr hmem
    rcases find?_runAll_cases tx g ht invs hfind with hold | ⟨stem, hstem, hentry⟩
    · exact (citePass_eq_nil_iff U c).mp hsilent cur f bytes ((find?_file c.tree).mp hold) hwalked hname hme num
    · rcases runAll_chain tx g hdays.lower ht invs with ⟨hnone, -⟩ |
        ⟨first, rest, d, base, hstems, hfirst, hbase, -, hchain⟩
      · rw [hnone] at hstem
        cases hstem
      · obtain ⟨d', hparse, hcopy⟩ := hchain.entries stem (hstems ▸ hstem)
        rw [hentry, hcopy] at hfind
        cases hfind
        intro hcites
        exact not_cites_base hsource hdays hfirst hbase hsilent (cites_retitle hparse hdays hcites)

/-- Whatever runs of the script there were, the gate is silent iff it was. -/
theorem numbers_unmoved (U : Unicode) (hdays : NamesDays tx) (ht : NoDangling c.tree) (invs : List Invocation)
    (hsource : SourceWalked g c) : check U (afterRuns tx g invs c) = .ok [] ↔ check U c = .ok [] := by
  have halike : AlikeElsewhere c (afterRuns tx g invs c) := ⟨rfl, rfl, fun p hp => find?_runAll tx g invs c.tree hp⟩
  exact halike.silent_iff (citePass_afterRuns tx g U hdays ht invs hsource)

end Verdict

def numberedTree : Tree where
  entries := [([rfd], .dir), ([rfd, "2001-a-slug".toList], .dir),
    (indexOf "2001-a-slug".toList, .file (ascii "---\ntitle: \"RFD 2001: A slug\"\nrfd: \"2001\"\n---\n".toList)),
    ([aliasesMd], .file (ascii "| RFD 0001 | RFD 2001 |\n".toList)),
    ([changelogDir], .dir), ([changelogDir, "2024".toList], .dir),
    (entryPath "20241231".toList, .file (ascii "# V-Sekai Deck Log - 2024-12-31 (Tuesday)\n\nRFD 2001.\n".toList))]
  nodup := by decide
  plain := by decide
  closed := by decide

def numberedCheckout : CheckRfdNumbers.Checkout := ⟨["tmp".toList], ["check-rfd-numbers.py".toList], numberedTree⟩

theorem numbers_unmoved_numberedTree :
    check .ascii (afterRuns gregorian asciiGraphemes [firstOfJanuary, secondOfJanuary] numberedCheckout) = .ok [] := by
  have hlatest : latestIn asciiGraphemes numberedTree = some (entryPath "20241231".toList) := by decide +kernel
  have hsource : SourceWalked asciiGraphemes numberedCheckout := by
    intro src bytes hsrc hread
    obtain rfl := Option.some.inj (hlatest.symm.trans hsrc)
    have hbytes : numberedTree.read (entryPath "20241231".toList) =
        .ok (ascii "# V-Sekai Deck Log - 2024-12-31 (Tuesday)\n\nRFD 2001.\n".toList) := rfl
    obtain rfl := Except.ok.inj (hbytes.symm.trans hread)
    exact ⟨filled_of_not_mem (by decide), by decide, by decide⟩
  have ht : NoDangling numberedTree := noDangling_of_entries (by decide)
  exact (numbers_unmoved gregorian asciiGraphemes .ascii weekday_gregorian ht _ hsource).mpr (by decide +kernel)

end ChangelogCreator
