import FabricManuals.CheckRfdNumbers.Accepts
import FabricManuals.CheckRfdNumbers.Defects
import FabricManuals.DecisionMeta.Alone
import FabricManuals.DecisionMeta.Title

/-! # The numbers of the gate as titles of the site

The page filter finds a page in its graph by the title, so the pages of two folders must
not share one.  Where the title line that the filter reads is one that the gate compares,
the gate keeps them apart. -/
set_option autoImplicit false

namespace CheckRfdNumbers

open Lines TextFile Backtrack FileTree OrderedDict PosixPath DecisionMeta

/-- The front matter has a title line, none above it and no line above it that begins like
a fence, and it is of the form that the gate compares. -/
structure Headed (body : Str) (line : Str) (num : Str) : Prop where
  block : ∃ above below rest, body = page (above ++ line :: below) rest ∧
    (∀ l ∈ above ++ line :: below, '\n' ∉ l) ∧
    ∀ l ∈ above, ¬ "title:".toList <+: l ∧ isFence l = false
  compared : titleField line = some num

/-- A title that begins with the number, with or without the quote of the source. -/
def NumberedTitle (num title : Str) : Prop :=
  "RFD ".toList ++ (num ++ ":".toList) <+: title ∨
    '"' :: ("RFD ".toList ++ (num ++ ":".toList)) <+: title

instance (num title : Str) : Decidable (NumberedTitle num title) := inferInstanceAs (Decidable (_ ∨ _))

theorem lines_page (ls : List Str) (hls : ∀ l ∈ ls, '\n' ∉ l) (body : Str) :
    lines (page ls body) = "---".toList :: (ls ++ "---".toList :: lines body) := by
  have main : ∀ (ls : List Str) (l : Str), '\n' ∉ l → (∀ l' ∈ ls, '\n' ∉ l') →
      lines (l ++ (ls.flatMap ('\n' :: ·) ++ ("\n---\n".toList ++ body))) =
        l :: (ls ++ "---".toList :: lines body) := by
    intro ls
    induction ls with
    | nil =>
        intro l hl _
        have hfence : lines ("---".toList ++ '\n' :: body) = "---".toList :: lines body :=
          splitOn_line_append '\n' (by decide) body
        rw [List.flatMap_nil, List.nil_append, List.nil_append, ← hfence]
        exact splitOn_line_append '\n' hl _
    | cons l' rest ih =>
        intro l hl hls
        obtain ⟨hl', hrest⟩ := List.forall_mem_cons.mp hls
        rw [List.flatMap_cons, List.cons_append, List.cons_append, List.append_assoc, List.cons_append,
          ← ih l' hl' hrest]
        exact splitOn_line_append '\n' hl _
  exact main ls "---".toList (by decide) hls

theorem Headed.firstSays {body line num : Str} (h : Headed body line num) :
    FirstSays titleField num (lines body) := by
  obtain ⟨above, below, rest, rfl, hlines, habove⟩ := h.block
  have hnone : above.filterMap titleField = [] := by
    rw [List.filterMap_eq_nil_iff]
    intro l hl
    cases hf : titleField l with
    | none => rfl
    | some n => exact absurd (fieldOf_key ⟨" \"RFD ".toList, by decide⟩ hf) (habove l hl).1
  have hfence : titleField "---".toList = none := by decide
  rw [FirstSays, lines_page _ hlines, List.filterMap_cons, hfence, List.filterMap_append,
    List.filterMap_append, hnone, List.nil_append, List.filterMap_cons, h.compared]
  rfl

/-! ## The title the filter reads -/

theorem parseTitle_first {above below : List Str} {u : Str}
    (habove : ∀ l ∈ above, '\n' ∉ l ∧ ¬ "title:".toList <+: l) (hfence : ∀ l ∈ above, isFence l = false)
    (hbelow : ∀ l ∈ below, '\n' ∉ l) (hline : '\n' ∉ u) (hu : ∃ c ∈ u, isSpace c = false)
    (rest fallback : Str) :
    parseTitle (page (above ++ ("title:".toList ++ u) :: below) rest) fallback = unquote (strip u) := by
  have hlines : ∀ l ∈ above ++ ("title:".toList ++ u) :: below, '\n' ∉ l := by
    intro l hl
    rcases List.mem_append.mp hl with hl | hl
    · exact (habove l hl).1
    · rcases List.mem_cons.mp hl with rfl | hl
      · simp [hline]
      · exact hbelow l hl
  let inside := below.takeWhile (!isFence ·)
  have htake : (above ++ ("title:".toList ++ u) :: below).takeWhile (!isFence ·) =
      above ++ ("title:".toList ++ u) :: inside := by
    rw [List.takeWhile_append_of_pos (by simpa using hfence), List.takeWhile_cons_of_pos]
    rfl
  have hend : inside.flatMap ('\n' :: ·) = [] ∨ (inside.flatMap ('\n' :: ·)).head? = some '\n' := by
    cases inside with
    | nil => exact Or.inl rfl
    | cons l ls => exact Or.inr rfl
  obtain ⟨w, v, hsplit, hw, hv⟩ := strip_split u
  have hcore := core_strip hline hu
  have hbefore : ('\n' :: (above.flatMap ('\n' :: ·)).reverse).head? = some '\n' := rfl
  obtain ⟨d, hd, hgroup⟩ := first_titleRe (Or.inr hbefore) hw hcore hv hend
  have htext : "title:".toList ++ (w ++ (strip u ++ (v ++ inside.flatMap ('\n' :: ·)))) =
      "title:".toList ++ u ++ inside.flatMap ('\n' :: ·) := by
    conv_rhs => rw [hsplit]
    simp only [List.append_assoc]
  rw [htext] at hd
  have hskip := titleRe_heads.skip_lines (by decide) (by decide) above []
    ('\n' :: ("title:".toList ++ u ++ inside.flatMap ('\n' :: ·))) habove (Or.inr rfl)
  have hsearch : search titleRe ((above ++ ("title:".toList ++ u) :: inside).flatMap ('\n' :: ·)) =
      some d := by
    rw [search, List.flatMap_append, List.flatMap_cons, List.cons_append, hskip,
      titleRe_heads.skip_newline (by decide) (by decide), List.append_nil, searchFrom_first hd]
  rw [parseTitle, parseFrontmatter_page rest _ hlines, htake, hsearch]
  simp only [hgroup, strip_core hcore]

theorem prefix_strip {c : Char} {w : Str} (hfirst : ∃ a ∈ w.head?, isSpace a = false)
    (hc : isSpace c = false) (v : Str) : w ++ [c] <+: strip (w ++ c :: v) := by
  obtain ⟨a, ha, hspace⟩ := hfirst
  obtain ⟨w', rfl⟩ : ∃ w', w = a :: w' := by
    cases w with
    | nil => cases ha
    | cons b w' => exact ⟨w', by rw [Option.some.inj ha]⟩
  have hleft : (a :: w' ++ c :: v).dropWhile isSpace = a :: w' ++ c :: v := by
    rw [List.cons_append, List.dropWhile_cons_of_neg (by simp [hspace])]
  have hkept : (c :: (a :: w').reverse).dropWhile isSpace = c :: (a :: w').reverse :=
    List.dropWhile_cons_of_neg (by simp [hc])
  have hright : (a :: w' ++ c :: v).reverse.dropWhile isSpace =
      v.reverse.dropWhile isSpace ++ c :: (a :: w').reverse := by
    rw [List.reverse_append, List.reverse_cons, List.append_assoc, List.singleton_append,
      List.dropWhile_append, hkept]
    split
    · next hnil => rw [List.isEmpty_iff.mp hnil, List.nil_append]
    · rfl
  rw [strip, hleft, hright, List.reverse_append, List.reverse_cons, List.reverse_reverse]
  exact List.prefix_append ..

theorem numberedTitle_unquote {num title : Str}
    (h : '"' :: ("RFD ".toList ++ (num ++ ":".toList)) <+: title) : NumberedTitle num (unquote title) := by
  obtain ⟨more, rfl⟩ := h
  rw [List.cons_append]
  by_cases hq : "RFD ".toList ++ (num ++ ":".toList) ++ more ≠ [] ∧ ('"' = '"' ∨ '"' = '\'') ∧
      ("RFD ".toList ++ (num ++ ":".toList) ++ more).getLast? = some '"'
  · rw [unquote, if_pos hq]
    have hmore : more ≠ [] := by
      rintro rfl
      have hlast : ("RFD ".toList ++ (num ++ ":".toList) ++ []).getLast? = some ':' := by
        rw [List.append_nil, ← List.append_assoc]
        exact List.getLast?_concat
      rw [hlast] at hq
      exact absurd hq.2.2 (by decide)
    rw [List.dropLast_append_of_ne_nil hmore]
    exact Or.inl (List.prefix_append ..)
  · rw [unquote, if_neg hq]
    exact Or.inr (List.prefix_append ..)

/-- What the filter makes of the title line that the gate compares. -/
theorem Headed.numberedTitle {body line num : Str} (h : Headed body line num) (fallback : Str) :
    NumberedTitle num (parseTitle body fallback) := by
  obtain ⟨above, below, rest, rfl, hlines, habove⟩ := h.block
  obtain ⟨hnum, more, rfl⟩ := (fieldOf_eq_some ..).mp h.compared
  let u := " \"RFD ".toList ++ (num ++ ":".toList) ++ more
  have hline : "title: \"RFD ".toList ++ (num ++ ":".toList) ++ more = "title:".toList ++ u := rfl
  rw [hline] at hlines ⊢
  have hu : '\n' ∉ u := fun hmem =>
    hlines ("title:".toList ++ u) (List.mem_append_right _ List.mem_cons_self) (List.mem_append_right _ hmem)
  have hopening : '"' :: ("RFD ".toList ++ (num ++ ":".toList)) <+: strip u := by
    have hgap : u = List.replicate 1 ' ' ++ ('"' :: ("RFD ".toList ++ num) ++ ':' :: more) := by
      simp [u]
    rw [hgap, strip_gap]
    have hkept := prefix_strip (w := '"' :: ("RFD ".toList ++ num)) ⟨'"', rfl, by decide⟩
      (show isSpace ':' = false by decide) more
    simpa using hkept
  have hsome : ∃ c ∈ u, isSpace c = false := ⟨'"', by simp [u], by decide⟩
  rw [parseTitle_first (fun l hl => ⟨hlines l (by simp [hl]), (habove l hl).1⟩) (fun l hl => (habove l hl).2)
    (fun l hl => hlines l (by simp [hl])) hu hsome]
  exact numberedTitle_unquote hopening

theorem NumberedTitle.unique {num num' title : Str} (hnum : IsNum num) (hnum' : IsNum num')
    (h : NumberedTitle num title) (h' : NumberedTitle num' title) : num = num' := by
  have hsame : ∀ opening : Str, opening ++ (num ++ ":".toList) <+: title →
      opening ++ (num' ++ ":".toList) <+: title → num = num' := by
    rintro opening ⟨x, hx⟩ ⟨x', hx'⟩
    rw [← hx', List.append_assoc, List.append_assoc, List.append_assoc, List.append_assoc] at hx
    exact hnum.unique hnum' _ _ (List.append_cancel_left hx)
  rcases h with h | h <;> rcases h' with h' | h'
  · exact hsame _ h h'
  · obtain ⟨x, rfl⟩ := h
    exact absurd (List.cons_prefix_cons.mp h').1 (by decide)
  · obtain ⟨x, rfl⟩ := h'
    exact absurd (List.cons_prefix_cons.mp h).1 (by decide)
  · exact hsame ('"' :: "RFD ".toList) h h'

/-! ## The pages of the folders -/

def pageKey (d : Name) : Str := joinSegs [rfd, d, "index".toList]

theorem key_of_path {s : Source} {d : Name} (h : s.path = indexOf d) : s.key = pageKey d := by
  have hmd : joinSegs (indexOf d) = pageKey d ++ ".md".toList := by
    simp [indexOf, pageKey, joinSegs]
  rw [Source.key, h, hmd, stripExt_md]

theorem pageKey_injective {d d' : Name} (h : pageKey d = pageKey d') : d = d' := by
  have hcancel : d ++ "/index".toList = d' ++ "/index".toList := by
    simpa [pageKey, joinSegs, rfd] using h
  exact List.append_cancel_right hcancel

theorem scanned_pageKey (d : Name) : skippedKey (pageKey d) = false := by
  simp only [skippedKey, SKIP_DIRS, List.any_cons, List.any_nil, Bool.or_false, Bool.or_eq_false_iff]
  exact ⟨rfl, rfl⟩

theorem Folder.isPage {t : Tree} {d : Name} (h : Folder t d) : IsPage (indexOf d) := by
  have hplain := (t.plain _ ((isdir_iff t (by simp)).mp h.isdir)).2
  obtain ⟨w, rest, hlen, hw, hd⟩ := h.named
  have hdot : d.head? ≠ some '.' := by
    cases w with
    | nil => cases hlen
    | cons a w =>
        rw [hd]
        intro hhead
        obtain rfl := Option.some.inj hhead
        exact absurd (hw '.' (List.mem_cons_self ..)) (by decide)
  refine ⟨?_, "index.md".toList, rfl, Or.inl (by decide)⟩
  intro n hn
  simp only [indexOf, List.mem_cons, List.not_mem_nil, or_false] at hn
  rcases hn with rfl | rfl | rfl
  · exact ⟨by decide, by decide⟩
  · exact ⟨hplain _ (by simp), hdot⟩
  · exact ⟨by decide, by decide⟩

/-- What has to hold of the pages for the filter, beside what the gate checks. -/
structure Ready (t : Tree) : Prop where
  decoded : ∀ s ∈ glob t, ¬ s.Breaks
  headed : ∀ d body, Folder t d → readIgnore t (indexOf d) = .ok body → ∃ line num, Headed body line num
  apart : ∀ P : DecisionMeta.Page, P.source ∈ glob t → P.Scanned →
    (∀ d, Folder t d → P.source.path ≠ indexOf d) →
    ∀ d, Folder t d → P.key ≠ pageKey d ∧ ¬ NumberedTitle (numOf d) P.title

structure PageOf (t : Tree) (d : Name) (P : DecisionMeta.Page) : Prop where
  folder : Folder t d
  mem : P.source ∈ glob t
  path : P.source.path = indexOf d

theorem PageOf.key {t : Tree} {d : Name} {P : DecisionMeta.Page} (h : PageOf t d P) :
    P.key = pageKey d := key_of_path h.path

theorem PageOf.scanned {t : Tree} {d : Name} {P : DecisionMeta.Page} (h : PageOf t d P) : P.Scanned := by
  rw [DecisionMeta.Page.Scanned, h.key]
  exact scanned_pageKey d

theorem PageOf.unique {t : Tree} {d : Name} {P Q : DecisionMeta.Page} (hP : PageOf t d P)
    (hQ : PageOf t d Q) : P = Q :=
  DecisionMeta.Page.eq_of_source (source_of_path hP.mem hQ.mem (hP.path.trans hQ.path.symm))

section Pages
variable {U : Unicode} {c : Checkout}

theorem clean_of_folder (h : check U c = .ok []) {d : Name} (hd : Folder c.tree d) : Clean c.tree d :=
  ((check_eq_nil_iff U c).mp h).2.2.1 d ((folder_iff_mem_candidates ..).mp hd)

theorem isNum_numOf (h : check U c = .ok []) {d : Name} (hd : Folder c.tree d) : IsNum (numOf d) := by
  obtain ⟨-, -, -, hnum, -⟩ := (clean_of_folder h hd).name
  exact hnum

theorem folder_of_numOf (h : check U c = .ok []) {d d' : Name} (hd : Folder c.tree d)
    (hd' : Folder c.tree d') (hnum : numOf d = numOf d') : d = d' := by
  obtain ⟨-, -, -, hnodup, -⟩ := (check_eq_nil_iff U c).mp h
  exact List.inj_on_of_nodup_map hnodup ((folder_iff_mem_candidates ..).mp hd)
    ((folder_iff_mem_candidates ..).mp hd') hnum

/-- Every folder has its page, under a title that carries the folder's number. -/
theorem exists_pageOf (h : check U c = .ok []) (hready : Ready c.tree) {d : Name} (hd : Folder c.tree d) :
    ∃ P, PageOf c.tree d P ∧ NumberedTitle (numOf d) P.title := by
  obtain ⟨body, hread, -, htitle⟩ := (clean_of_folder h hd).header
  obtain ⟨line, num, hheaded⟩ := hready.headed d body hd hread
  rw [search_TITLE_RE] at htitle
  obtain rfl : num = numOf d := Option.some.inj (hheaded.firstSays.symm.trans htitle)
  obtain ⟨bytes, hbytes, rfl⟩ := (readIgnore_eq_ok ..).mp hread
  have hentry := (find?_eq_some_iff c.tree (p := indexOf d) (by simp [indexOf]) _).mp
    ((read_eq_ok_iff ..).mp hbytes)
  let s : Source := ⟨indexOf d, .ok bytes, hd.isPage⟩
  have hmem : s ∈ glob c.tree := mem_glob_of_file hd.isPage hentry
  have hscanned : skippedKey s.key = false := by
    rw [key_of_path (s := s) rfl]
    exact scanned_pageKey d
  cases hdecode : decode bytes with
  | none => exact absurd ⟨hscanned, by simp [s, textOf, hdecode]⟩ (hready.decoded s hmem)
  | some text =>
      let P : DecisionMeta.Page := ⟨s, text, (textOf_eq_ok ..).mpr ⟨bytes, rfl, hdecode⟩⟩
      rw [decodeIgnore_of_decode hdecode] at hheaded
      exact ⟨P, ⟨hd, hmem, rfl⟩, hheaded.numberedTitle _⟩

theorem page_of_title (h : check U c = .ok []) (hready : Ready c.tree) {d : Name} {P Q : DecisionMeta.Page}
    (hP : PageOf c.tree d P) (hnumbered : NumberedTitle (numOf d) P.title) (hQ : Q.source ∈ glob c.tree)
    (hscanned : Q.Scanned) (htitle : Q.title = P.title) : Q = P := by
  by_cases hfolder : ∃ d', Folder c.tree d' ∧ Q.source.path = indexOf d'
  · obtain ⟨d', hd', hpath⟩ := hfolder
    have hQ' : PageOf c.tree d' Q := ⟨hd', hQ, hpath⟩
    obtain ⟨Q', hQ'', hnumbered'⟩ := exists_pageOf h hready hd'
    obtain rfl := hQ'.unique hQ''
    rw [htitle] at hnumbered'
    obtain rfl := folder_of_numOf h hP.folder hd'
      (hnumbered.unique (isNum_numOf h hP.folder) (isNum_numOf h hd') hnumbered')
    exact hQ'.unique hP
  · have hother : ∀ d', Folder c.tree d' → Q.source.path ≠ indexOf d' := fun d' hd' hpath =>
      hfolder ⟨d', hd', hpath⟩
    exact absurd (htitle ▸ hnumbered) (hready.apart Q hQ hscanned hother d hP.folder).2

theorem page_of_key (hready : Ready c.tree) {d : Name} {P Q : DecisionMeta.Page} (hP : PageOf c.tree d P)
    (hQ : Q.source ∈ glob c.tree) (hkey : Q.key = P.key) : Q = P := by
  have hscanned : Q.Scanned := by
    rw [DecisionMeta.Page.Scanned, hkey]
    exact hP.scanned
  by_cases hfolder : ∃ d', Folder c.tree d' ∧ Q.source.path = indexOf d'
  · obtain ⟨d', hd', hpath⟩ := hfolder
    have hQ' : PageOf c.tree d' Q := ⟨hd', hQ, hpath⟩
    obtain rfl := pageKey_injective (hQ'.key.symm.trans (hkey.trans hP.key))
    exact hQ'.unique hP
  · have hother : ∀ d', Folder c.tree d' → Q.source.path ≠ indexOf d' := fun d' hd' hpath =>
      hfolder ⟨d', hd', hpath⟩
    exact absurd (hkey.trans hP.key) (hready.apart Q hQ hscanned hother d hP.folder).1

theorem alone_of_pageOf (h : check U c = .ok []) (hready : Ready c.tree) {order : List Source}
    (horder : order.Perm (glob c.tree)) {d : Name} {P : DecisionMeta.Page} (hP : PageOf c.tree d P)
    (hnumbered : NumberedTitle (numOf d) P.title) : P.AloneTitled order where
  mem := horder.mem_iff.mpr hP.mem
  scanned := hP.scanned
  unique Q hQ hkey := page_of_key hready hP (horder.mem_iff.mp hQ) hkey
  titled := by
    rintro hnil
    rw [hnil] at hnumbered
    rcases hnumbered with hpre | hpre
    · exact absurd (List.prefix_nil.mp hpre) (by simp)
    · exact absurd (List.prefix_nil.mp hpre) (by simp)
  sole Q hQ hscanned htitle := page_of_title h hready hP hnumbered (horder.mem_iff.mp hQ) hscanned htitle

/-- On a tree that the gate is silent about, the filter finds each folder's page by its
title, in whatever order it scans, and relates two of them iff one links to the other. -/
theorem folders_navigate (h : check U c = .ok []) (hready : Ready c.tree) (env : Env) {order : List Source}
    (horder : order.Perm (glob c.tree)) {d : Name} (hd : Folder c.tree d) :
    ∃ P, PageOf c.tree d P ∧ NumberedTitle (numOf d) P.title ∧
      ∃ nav, navigation env order (some P.title) = .ok (some nav) ∧ nav.current = pageKey d ∧
        ∀ d' Q, PageOf c.tree d' Q → d' ≠ d → (pageKey d' ∈ nav.related ↔ P.Linked Q) := by
  obtain ⟨P, hP, hnumbered⟩ := exists_pageOf h hready hd
  have halone := alone_of_pageOf h hready horder hP hnumbered
  obtain ⟨nav, hnav, hcurrent, -, hrelated⟩ :=
    halone.navigation (fun s hs => hready.decoded s (horder.mem_iff.mp hs)) env
  refine ⟨P, hP, hnumbered, nav, hnav, hcurrent.trans hP.key, ?_⟩
  intro d' Q hQ hne
  obtain ⟨Q', hQ', hnumbered'⟩ := exists_pageOf h hready hQ.folder
  obtain rfl := hQ.unique hQ'
  have hdiffer : Q ≠ P := by
    rintro rfl
    exact hne (pageKey_injective (hQ.key.symm.trans hP.key))
  have hslash : '/' ∈ Q.key := by
    rw [hQ.key]
    simp [pageKey, joinSegs, rfd]
  rw [← hQ.key]
  exact hrelated Q (alone_of_pageOf h hready horder hQ hnumbered').toAlone hdiffer hslash

end Pages

def firstDir : Name := "2001-a".toList
def secondDir : Name := "2002-b".toList

def firstTitle : Str := "title: \"RFD 2001: A\"".toList
def secondTitle : Str := "title: \"RFD 2002: B\" # to be renamed".toList

def firstIndex : Str := page [firstTitle, "rfd: \"2001\"".toList] "See [b](../2002-b/index.md).\n".toList
def secondIndex : Str := page ["rfd: \"2002\"".toList, secondTitle] []

def pairTree : Tree where
  entries := [([rfd], .dir), ([rfd, firstDir], .dir), (indexOf firstDir, .file (ascii firstIndex)),
    ([rfd, secondDir], .dir), (indexOf secondDir, .file (ascii secondIndex)),
    ([aliasesMd], .file (ascii "| RFD 0001 | RFD 2001 |\n| RFD 0002 | RFD 2002 |\n".toList))]
  nodup := by decide
  plain := by decide
  closed := by decide

def pairCheckout : Checkout := ⟨["tmp".toList], ["check-rfd-numbers.py".toList], pairTree⟩

def aliasPage : DecisionMeta.Page :=
  ⟨⟨[aliasesMd], .ok (ascii "| RFD 0001 | RFD 2001 |\n| RFD 0002 | RFD 2002 |\n".toList), by decide⟩,
    "| RFD 0001 | RFD 2001 |\n| RFD 0002 | RFD 2002 |\n".toList, by decide +kernel⟩

def firstPage : DecisionMeta.Page :=
  ⟨⟨indexOf firstDir, .ok (ascii firstIndex), by decide⟩, firstIndex, by decide +kernel⟩

def secondPage : DecisionMeta.Page :=
  ⟨⟨indexOf secondDir, .ok (ascii secondIndex), by decide⟩, secondIndex, by decide +kernel⟩

theorem pair_folder (d : Name) : Folder pairTree d ↔ d = firstDir ∨ d = secondDir := by
  have hlist : candidates pairTree = [firstDir, secondDir] := by decide +kernel
  rw [folder_iff_mem_candidates, hlist]
  simp

theorem pageOf_first : PageOf pairTree firstDir firstPage :=
  ⟨(pair_folder _).mpr (Or.inl rfl), mem_glob_of_file _ (by simp [pairTree]), rfl⟩

theorem pageOf_second : PageOf pairTree secondDir secondPage :=
  ⟨(pair_folder _).mpr (Or.inr rfl), mem_glob_of_file _ (by simp [pairTree]), rfl⟩

theorem pair_pages {s : Source} (h : s ∈ glob pairTree) :
    s.path = indexOf firstDir ∨ s.path = indexOf secondDir ∨ s = aliasPage.source := by
  have halias : aliasPage.source ∈ glob pairTree := mem_glob_of_file _ (by simp [pairTree])
  obtain ⟨⟨e, he⟩, -⟩ := (mem_glob_iff ..).mp h
  simp only [pairTree, List.mem_cons, Prod.mk.injEq, List.not_mem_nil, or_false] at he
  rcases he with ⟨hpath, -⟩ | ⟨hpath, -⟩ | ⟨hpath, -⟩ | ⟨hpath, -⟩ | ⟨hpath, -⟩ | ⟨hpath, -⟩
  · exact absurd (hpath ▸ s.page) (by decide)
  · exact absurd (hpath ▸ s.page) (by decide)
  · exact Or.inl hpath
  · exact absurd (hpath ▸ s.page) (by decide)
  · exact Or.inr (Or.inl hpath)
  · exact Or.inr (Or.inr (source_of_path h halias hpath))

theorem pair_ready : Ready pairTree where
  decoded := by decide +kernel
  headed d body hd hread := by
    rcases (pair_folder d).mp hd with rfl | rfl
    · have hbody : readIgnore pairTree (indexOf firstDir) = .ok firstIndex := by decide +kernel
      obtain rfl := Except.ok.inj (hbody.symm.trans hread)
      exact ⟨firstTitle, "2001".toList, ⟨[], _, _, rfl, by decide, by decide⟩, by decide⟩
    · have hbody : readIgnore pairTree (indexOf secondDir) = .ok secondIndex := by decide +kernel
      obtain rfl := Except.ok.inj (hbody.symm.trans hread)
      exact ⟨secondTitle, "2002".toList, ⟨["rfd: \"2002\"".toList], [], _, rfl, by decide, by decide⟩,
        by decide⟩
  apart P hP hscanned hother d hd := by
    rcases pair_pages hP with hpath | hpath | hsource
    · exact absurd hpath (hother firstDir pageOf_first.folder)
    · exact absurd hpath (hother secondDir pageOf_second.folder)
    · obtain rfl := DecisionMeta.Page.eq_of_source hsource
      rcases (pair_folder d).mp hd with rfl | rfl
      · exact ⟨by decide +kernel, by decide +kernel⟩
      · exact ⟨by decide +kernel, by decide +kernel⟩

theorem folders_navigate_pair :
    ∃ nav, navigation siteEnv (glob pairTree) (some "RFD 2001: A".toList) = .ok (some nav) ∧
      nav.current = pageKey firstDir ∧ pageKey secondDir ∈ nav.related := by
  have hpass : check .ascii pairCheckout = .ok [] := by decide +kernel
  obtain ⟨P, hP, -, nav, hnav, hcurrent, hrelated⟩ :=
    folders_navigate hpass pair_ready siteEnv (List.Perm.refl _) pageOf_first.folder
  obtain rfl := hP.unique pageOf_first
  have htitle : firstPage.title = "RFD 2001: A".toList := by decide +kernel
  rw [htitle] at hnav
  exact ⟨nav, hnav, hcurrent, (hrelated secondDir secondPage pageOf_second (by decide)).mpr (by decide +kernel)⟩

end CheckRfdNumbers
