import FabricManuals.DecisionMeta.Resolve
import FabricManuals.DecisionMeta.Urls
import FabricManuals.Lib.FirstMatch

/-! # Superseded pages

The status of a superseded page names its successor by a path.  The link on the page
takes the whole path; the edge of the graph is drawn from the date stems in the front
matter, which are looked up beside the page. -/
set_option autoImplicit false

namespace DecisionMeta

open TextFile Backtrack FileTree OrderedDict PosixPath

def frontOut (key text : Str) : List Str :=
  ((findall (concat [STEM, lit ".md".toList]) (parseFrontmatter text)).filterMap
    (resolve (dirname key))).filter (· ≠ key)

def linkOut (key text : Str) : List Str :=
  ((findall LINK text).filterMap (linkKey (dirname key))).filter (· ≠ key)

theorem mem_outOf (key text k : Str) : k ∈ outOf key text ↔ k ∈ linkOut key text ∨ k ∈ frontOut key text := by
  simp only [outOf, linkOut, frontOut, List.mem_dedup, List.filter_append, List.mem_append]

def statusText (path : Str) : Str := "superseded by ".toList ++ (path ++ ".md".toList)

/-- From the page `current`, `path` with its extension is the file of the page `key`. -/
def PathTo (current path key : Str) : Prop :=
  isabs path = false ∧ walkKey (dirSegs current) (path ++ ".md".toList) = some (key ++ ".md".toList)

def IsStem (s : Str) : Prop :=
  ∃ date slug, s = date ++ '-' :: slug ∧ date.length = 8 ∧ (∀ c ∈ date, isDigit c = true) ∧
    slug ≠ [] ∧ ∀ c ∈ slug, isSlug c = true

/-- The graph of the scan holds what the page says, and `key` is in the out-set for a stem
of the front matter. -/
def FrontEdge (env : Env) (paths : List Source) (P : Page) (key : Str) : Prop :=
  ∃ graph, scan env paths = .ok graph ∧ graph.get? P.key = some P.info ∧ key ∈ P.info.out ∧
    key ∈ frontOut P.key P.text

/-- The link that the status puts on the page leads to `key`, and so does an edge of the
graph. -/
def LinkAgrees (env : Env) (paths : List Source) (P : Page) (path key : Str) : Prop :=
  (∃ lead label, statusInlines (statusText path) = lead ++ [.link label (path ++ ".html".toList)]) ∧
    LeadsTo P.key (path ++ ".html".toList) key ∧ FrontEdge env paths P key

/-- Every file the scan opens decodes, and no file scanned after the page overwrites its
entry with another one. -/
structure Recorded (paths : List Source) (P : Page) : Prop where
  decoded : ∀ s ∈ paths, ¬ s.Breaks
  kept : ∃ X : Page, X.LastIn paths ∧ X.key = P.key ∧ X.info = P.info

theorem frontEdge_iff (env : Env) (paths : List Source) (P : Page) (key : Str) :
    FrontEdge env paths P key ↔ Recorded paths P ∧ key ∈ frontOut P.key P.text := by
  constructor
  · intro h
    obtain ⟨graph, hscan, hget, -, hmem⟩ := h
    rw [scan_eq] at hscan
    split at hscan
    · cases hscan
    · next hdecoded =>
        obtain rfl := Except.ok.inj hscan
        exact ⟨⟨fun s hs hbreaks => hdecoded ⟨s, hs, hbreaks⟩, exists_lastIn hget⟩, hmem⟩
  · intro h
    obtain ⟨⟨hdecoded, X, hlast, hkey, hinfo⟩, hmem⟩ := h
    refine ⟨graphOf paths, ?_, ?_, (mem_outOf ..).mpr (Or.inr hmem), hmem⟩
    · exact (scan_eq env paths).trans (if_neg fun ⟨s, hs, hbreaks⟩ => hdecoded s hs hbreaks)
    · rw [← hkey, ← hinfo]
      exact hlast.get?

/-! ## Stems of the front matter -/

def isStemChar (c : Char) : Bool := isSlug c || c == '.'

theorem mem_run_stem (before after : Str) (d : Cursor Char) :
    d ∈ (concat [STEM, lit ".md".toList]).run ⟨before, after, none⟩ ↔
      ∃ stem, IsStem stem ∧ Advances ⟨before, after, none⟩ d (stem ++ ".md".toList) ∧
        d.group = none := by
  simp only [STEM, run_concat_cons, run_concat_nil, List.mem_flatMap, List.mem_singleton, mem_run_lit,
    mem_run_times_set, mem_run_plus_set]
  constructor
  · intro h
    obtain ⟨_, ⟨e₁, ⟨date, hlen, hdate, h₁, g₁⟩, e₂, ⟨h₂, g₂⟩, e, ⟨slug, hne, hslug, h₃, g₃⟩, rfl⟩, d,
      ⟨h₄, g₄⟩, rfl⟩ := h
    have hstem := h₁.trans (Advances.trans (v := "-".toList) h₂ h₃)
    exact ⟨date ++ '-' :: slug, ⟨date, slug, rfl, hlen, hdate, hne, hslug⟩, hstem.trans h₄,
      g₄.trans (g₃.trans (g₂.trans g₁))⟩
  · intro h
    obtain ⟨_, ⟨date, slug, rfl, hlen, hdate, hne, hslug⟩, hadv, hg⟩ := h
    obtain ⟨e, ge, hstem, hmd⟩ := hadv.split none
    obtain ⟨e₁, g₁, h₁, hrest⟩ := hstem.split none
    obtain ⟨e₂, g₂, h₂, h₃⟩ := Advances.split (v := "-".toList) hrest none
    exact ⟨e, ⟨e₁, ⟨date, hlen, hdate, h₁, g₁⟩, e₂, ⟨h₂, g₂.trans g₁.symm⟩, e,
      ⟨slug, hne, hslug, h₃, ge.trans g₂.symm⟩, rfl⟩, d, ⟨hmd, hg.trans ge.symm⟩, rfl⟩

theorem isSlug_of_isDigit {c : Char} (h : isDigit c = true) : isSlug c = true := by
  simp [isSlug, h]

theorem IsStem.chars {s : Str} (h : IsStem s) : ∀ c ∈ s, isSlug c = true := by
  obtain ⟨date, slug, rfl, -, hdate, -, hslug⟩ := h
  intro c hc
  rcases List.mem_append.mp hc with hc | hc
  · exact isSlug_of_isDigit (hdate c hc)
  · rcases List.mem_cons.mp hc with rfl | hc
    · decide
    · exact hslug c hc

theorem IsStem.not_mem {s : Str} (h : IsStem s) {c : Char} (hc : isSlug c = false) : c ∉ s := by
  intro hmem
  rw [h.chars c hmem] at hc
  cases hc

theorem IsStem.head {s : Str} (h : IsStem s) : ∃ c rest, s = c :: rest ∧ isDigit c = true := by
  obtain ⟨date, slug, rfl, hlen, hdate, -, -⟩ := h
  cases date with
  | nil => simp at hlen
  | cons c rest => exact ⟨c, rest ++ '-' :: slug, rfl, hdate c (List.mem_cons_self ..)⟩

theorem IsStem.isabs {s : Str} (h : IsStem s) : isabs s = false := by
  obtain ⟨c, rest, rfl, hdigit⟩ := h.head
  have hc : c ≠ '/' := by
    intro hc
    subst hc
    exact absurd hdigit (by decide)
  simpa [PosixPath.isabs] using hc

theorem IsStem.visible {s : Str} (h : IsStem s) : Visible s := by
  obtain ⟨c, rest, rfl, hdigit⟩ := h.head
  have hc : c ≠ '.' := by
    intro hc
    subst hc
    exact absurd hdigit (by decide)
  refine ⟨⟨by simp, ?_, ?_, h.not_mem (by decide)⟩, by simpa using hc⟩
  · exact fun e => hc (List.cons.inj e).1
  · exact fun e => hc (List.cons.inj e).1

theorem stem_md_inj {s t u v : Str} (hs : IsStem s) (ht : IsStem t)
    (h : s ++ ".md".toList ++ u = t ++ ".md".toList ++ v) : s = t := by
  have htake : ∀ {x y : Str}, IsStem x → (x ++ ".md".toList ++ y).takeWhile (· != '.') = x := by
    intro x y hx
    rw [List.append_assoc, takeWhile_of_notMem (hx.not_mem (by decide))]
    simp
  have := congrArg (List.takeWhile (· != '.')) h
  rwa [htake hs, htake ht] at this

theorem stem_spells : Spells (concat [STEM, lit ".md".toList]) isStemChar := by
  intro before after d hd
  obtain ⟨stem, hstem, hadv, -⟩ := (mem_run_stem before after d).mp (first_mem hd)
  rw [hit_text_of_advances hadv]
  intro a ha
  rcases List.mem_append.mp ha with ha | ha
  · simp [isStemChar, hstem.chars a ha]
  · have hmd : ∀ a ∈ ".md".toList, isStemChar a = true := by decide
    exact hmd a ha

theorem findall_stem_sound {s w : Str} (h : w ∈ findall (concat [STEM, lit ".md".toList]) s) :
    ∃ stem, w = stem ++ ".md".toList ∧ IsStem stem := by
  obtain ⟨hit, hmem, rfl⟩ := List.mem_map.mp h
  obtain ⟨pre, post, d, -, hd, rfl⟩ := iterFrom_sound s [] 0 hmem
  obtain ⟨stem, hstem, hadv, hg⟩ := (mem_run_stem _ _ d).mp (first_mem hd)
  refine ⟨stem, ?_, hstem⟩
  rw [show (Hit.of post d).group = (Hit.of post d).text by rw [Hit.of, hg]; rfl,
    hit_text_of_advances hadv]

theorem findall_stem_complete {stem : Str} (h : IsStem stem) {c : Char} (hc : isStemChar c = false)
    (pre post : Str) :
    stem ++ ".md".toList ∈
      findall (concat [STEM, lit ".md".toList]) (pre ++ c :: (stem ++ ".md".toList ++ post)) := by
  have hsome : (first (concat [STEM, lit ".md".toList]) (c :: pre.reverse)
      (stem ++ ".md".toList ++ post)).isSome := by
    rw [first_isSome_iff]
    exact ⟨⟨(stem ++ ".md".toList).reverse ++ c :: pre.reverse, post, none⟩,
      (mem_run_stem _ _ _).mpr ⟨stem, h, ⟨rfl, rfl⟩, rfl⟩⟩
  obtain ⟨d, hd⟩ := Option.isSome_iff_exists.mp hsome
  obtain ⟨stem', hstem', hadv, hg⟩ := (mem_run_stem _ _ d).mp (first_mem hd)
  refine List.mem_map.mpr ⟨_, stem_spells.mem_finditer hc pre hd, ?_⟩
  rw [show (Hit.of (stem ++ ".md".toList ++ post) d).group =
      (Hit.of (stem ++ ".md".toList ++ post) d).text by rw [Hit.of, hg]; rfl,
    hit_text_of_advances hadv, stem_md_inj h hstem' hadv.1]

theorem dirSegs_visible {key : Str} (h : ∀ n ∈ split key, Visible n) :
    ∀ n ∈ dirSegs key, Visible n := fun n hn => h n (List.mem_of_mem_dropLast hn)

theorem walkPlace_visible {dir : List Str} (hdir : ∀ n ∈ dir, Plain n) {name : Str}
    (hname : Visible name) (hrel : isabs name = false) :
    (walkPlace dir name).ups = 0 ∧ (walkPlace dir name).names = dir ++ [name] := by
  have hsplit : split name = [name] := by
    have := @split_joinSegs [name] (by simp) (by simpa using hname.1.no_slash)
    simpa [joinSegs] using this
  obtain ⟨hups, hnames⟩ := Place.walk_names [name] (Place.dir dir) (by simpa using hname.1.named)
  obtain ⟨hups', hnames'⟩ := Place.dir_names hdir
  rw [walkPlace, hrel, hsplit, if_neg (by simp), hups, hnames, hups', hnames']
  exact ⟨rfl, rfl⟩

theorem not_belowDots_of_visible {dir : List Str} {path : Str}
    (h : ∀ n ∈ (walkPlace dir path).names, Visible n) : ¬ BelowDots dir path := by
  intro hbelow
  obtain ⟨-, name, hname, hdots⟩ := hbelow
  have hhead : name.head? = some '.' := by
    obtain ⟨rest, rfl⟩ := hdots
    rfl
  exact (h name (List.mem_of_mem_head? hname)).2 hhead

theorem resolve_stem {key stem : Str} (hkey : ∀ n ∈ split key, Visible n) (h : IsStem stem) :
    resolve (dirname key) (stem ++ ".md".toList) = some (joinSegs (dirSegs key ++ [stem])) := by
  have hdir := dirSegs_visible hkey
  have hplain : ∀ n ∈ dirSegs key, Plain n := fun n hn => (hdir n hn).1
  have htarget : stripExt (pathPart (stem ++ ".md".toList)) = stem := by
    have hmd : ".md".toList ∈ PAGE_EXT := by decide
    have := pathPart_target (h.not_mem (by decide)) (h.not_mem (by decide)) hmd (Or.inl rfl)
    rwa [List.append_nil] at this
  obtain ⟨hups, hnames⟩ := walkPlace_visible hplain h.visible h.isabs
  have hdots : ¬ BelowDots (dirSegs key) stem := by
    apply not_belowDots_of_visible
    intro n hn
    rw [hnames, List.mem_append, List.mem_singleton] at hn
    rcases hn with hn | rfl
    · exact hdir n hn
    · exact h.visible
  rw [dirname_key hkey, (resolve_relative_iff hplain htarget h.visible.1.ne_nil h.isabs).mpr hdots,
    walkKey, Place.key, if_pos hups, hnames, if_neg (by simp)]

theorem mem_frontOut {key text k : Str} (hkey : ∀ n ∈ split key, Visible n) :
    k ∈ frontOut key text ↔ k ≠ key ∧ ∃ stem, IsStem stem ∧
      stem ++ ".md".toList ∈ findall (concat [STEM, lit ".md".toList]) (parseFrontmatter text) ∧
      k = joinSegs (dirSegs key ++ [stem]) := by
  simp only [frontOut, List.mem_filter, List.mem_filterMap, decide_eq_true_eq]
  constructor
  · intro h
    obtain ⟨⟨w, hw, hresolve⟩, hne⟩ := h
    obtain ⟨stem, rfl, hstem⟩ := findall_stem_sound hw
    rw [resolve_stem hkey hstem] at hresolve
    exact ⟨hne, stem, hstem, hw, (Option.some.inj hresolve).symm⟩
  · intro h
    obtain ⟨hne, stem, hstem, hw, rfl⟩ := h
    exact ⟨⟨_, hw, resolve_stem hkey hstem⟩, hne⟩

/-! ## Where the path leads -/

def IsEnding (w : Str) : Prop := 3 ≤ w.length ∧ '/' ∉ w

theorem IsEnding.named {w : Str} (h : IsEnding w) (s : Str) : Named (s ++ w) := by
  have hlen : 3 ≤ (s ++ w).length := by
    rw [List.length_append]
    have := h.1
    omega
  refine ⟨?_, ?_, ?_⟩
  · intro e
    rw [e] at hlen
    simp at hlen
  · intro e
    rw [e] at hlen
    simp [dot] at hlen
  · intro e
    rw [e] at hlen
    simp [dotdot] at hlen

theorem split_append_ending {s w : Str} (hw : '/' ∉ w) {init : List Str} {last : Str}
    (h : split s = init ++ [last]) : split (s ++ w) = init ++ [last ++ w] := by
  have hslash : ∀ n ∈ init ++ [last ++ w], '/' ∉ n := by
    intro n hn
    rcases List.mem_append.mp hn with hn | hn
    · exact no_slash_of_mem_split (s := s) (by rw [h]; exact List.mem_append_left _ hn)
    · rw [List.mem_singleton.mp hn, List.mem_append, not_or]
      exact ⟨no_slash_of_mem_split (s := s) (by rw [h]; simp), hw⟩
  rw [← joinSegs_split s, h, joinSegs_append_last, split_joinSegs (by simp) hslash]

/-- Two paths with one ending lead to one place if their last names are the same and
the ways to them lead to one directory. -/
theorem urlTarget_ending_iff {w : Str} (hw : IsEnding w) (dir : List Str) {path key : Str}
    {init kinit : List Str} {last klast : Str} (hpath : split path = init ++ [last])
    (hkey : split key = kinit ++ [klast]) :
    urlTarget dir (path ++ w) = split (key ++ w) ↔ walk dir init = kinit ∧ last = klast := by
  have hstep : ∀ base : List Str, walk base [last ++ w] = base ++ [last ++ w] := by
    intro base
    have hnamed := hw.named last
    rw [walk_cons, step, if_neg (by simp [hnamed.1, hnamed.2.1]), if_neg hnamed.2.2]
    rfl
  rw [urlTarget, split_append_ending hw.2 hpath, split_append_ending hw.2 hkey, walk_append, hstep,
    List.append_singleton_inj, List.append_left_inj]

theorem urlTarget_of_walkKey {dir : List Str} (hplain : ∀ n ∈ dir, Plain n) {path key : Str}
    (hrel : isabs path = false) (hwalk : walkKey dir path = some key) (hkey : key ≠ dot) :
    urlTarget dir path = split key := by
  obtain ⟨hups, hnames⟩ := Place.dir_names hplain
  have hinside : (walkPlace dir path).ups = 0 := by
    rw [walkKey, Place.key] at hwalk
    by_contra hout
    rw [if_neg hout] at hwalk
    cases hwalk
  have htarget : (walkPlace dir path).names = urlTarget dir path := by
    have hplace : walkPlace dir path = (Place.dir dir).walk (split path) := by
      rw [walkPlace, hrel]
      rfl
    rw [hplace] at hinside ⊢
    rw [Place.names_walk _ _ (hinside.trans hups.symm), hnames]
    rfl
  rw [walkKey, Place.key, if_pos hinside, htarget, Option.some.injEq] at hwalk
  rw [← hwalk]
  split
  · next hnil =>
      rw [if_pos hnil] at hwalk
      exact absurd hwalk.symm hkey
  · next hne =>
      refine (split_joinSegs hne fun n hn => ?_).symm
      rw [← htarget] at hn
      exact walkPlace_no_slash hplain _ n hn

theorem pathTo_spec {current path key : Str} (hcurrent : ∀ n ∈ split current, Visible n)
    (h : PathTo current path key) :
    ∃ init last, split path = init ++ [last] ∧ walk (dirSegs current) init = dirSegs key ∧
      split key = dirSegs key ++ [last] := by
  obtain ⟨hrel, hwalk⟩ := h
  have hmd : IsEnding ".md".toList := ⟨by decide, by decide⟩
  have hplain : ∀ n ∈ dirSegs current, Plain n := fun n hn => (dirSegs_visible hcurrent n hn).1
  have hrel' : isabs (path ++ ".md".toList) = false := by
    cases path with
    | nil => rfl
    | cons c rest => simpa [isabs] using hrel
  have hfile : key ++ ".md".toList ≠ dot := by
    intro hdot
    have := congrArg List.length hdot
    simp [dot] at this
  have htarget := urlTarget_of_walkKey hplain hrel' hwalk hfile
  obtain ⟨init, last, hpath⟩ : ∃ init last, split path = init ++ [last] :=
    ⟨_, _, (List.dropLast_append_getLast (split_ne_nil path)).symm⟩
  have hsplit := (List.dropLast_append_getLast (split_ne_nil key)).symm
  obtain ⟨hdir, hlast⟩ := (urlTarget_ending_iff hmd _ hpath hsplit).mp htarget
  exact ⟨init, last, hpath, hdir, by rw [hlast]; exact hsplit⟩

theorem leadsTo_of_pathTo {current path key : Str} (hcurrent : ∀ n ∈ split current, Visible n)
    (h : PathTo current path key) : LeadsTo current (path ++ ".html".toList) key := by
  obtain ⟨init, last, hpath, hdir, hkey⟩ := pathTo_spec hcurrent h
  exact (urlTarget_ending_iff ⟨by decide, by decide⟩ _ hpath hkey).mpr ⟨hdir, rfl⟩

/-! ## The link of the status -/

theorem statusText_eq (path : Str) :
    statusText path = "superseded by".toList ++ (" ".toList ++ (path ++ ".md".toList)) := by
  have hopening : "superseded by ".toList = "superseded by".toList ++ " ".toList := by decide +kernel
  calc statusText path = ("superseded by".toList ++ " ".toList) ++ (path ++ ".md".toList) :=
        congrArg (· ++ (path ++ ".md".toList)) hopening
    _ = _ := List.append_assoc ..

def openingSets : List (Char → Bool) := "superseded by".toList.map fun c => sameLetter c

theorem superseded_eq : SUPERSEDED =
    concat [bos, concat (openingSets.map .set), plus true (.set isSpace),
      .capture (plus true (.set fun c => !isSpace c)), lit ".".toList, .set (sameLetter 'm'),
      .set (sameLetter 'd'), .star true (.set isSpace), eos '\n'] := rfl

/-- How a status that names a successor is read: the path lies between white space and
an extension, and nothing but white space follows. -/
theorem superseded_sound {s : Str} {d : Cursor Char} (h : d ∈ SUPERSEDED.run ⟨[], s, none⟩) :
    ∃ opening gap g ext rest, opening.length = 13 ∧ gap ≠ [] ∧ (∀ c ∈ gap, isSpace c = true) ∧
      g ≠ [] ∧ (∀ c ∈ g, isSpace c = false) ∧ ext.length = 3 ∧ (∀ c ∈ rest, isSpace c = true) ∧
      s = opening ++ (gap ++ (g ++ (ext ++ rest))) ∧ d.group = some g := by
  rw [superseded_eq] at h
  simp only [run_concat_cons, run_concat_nil, List.mem_flatMap, List.mem_singleton, bos, eos,
    mem_run_look, mem_run_sets, mem_run_plus_set, mem_run_star_set, mem_run_capture, mem_run_lit,
    mem_run_set] at h
  obtain ⟨_, ⟨-, rfl⟩, e₁, ⟨opening, hopen, h₁, -⟩, e₂, ⟨gap, hgap, hspace, h₂, -⟩, _,
    ⟨e₃, ⟨g, hg, hword, h₃, -⟩, rfl⟩, e₄, ⟨h₄, g₄⟩, e₅, ⟨m, -, h₅, -, g₅⟩, e₆, ⟨d', -, h₆, -, g₆⟩, e₇,
    ⟨tail, htail, h₇, g₇⟩, _, ⟨hend, rfl⟩, rfl⟩ := h
  refine ⟨opening, gap, g, ['.', m, d'], tail ++ d.after, ?_, hgap, hspace, hg, by simpa using hword,
    rfl, ?_, ?_, ?_⟩
  · exact hopen.length_eq.symm
  · intro c hc
    rcases List.mem_append.mp hc with hc | hc
    · exact htail c hc
    · have hnewline : d.after = [] ∨ d.after = ['\n'] := by simpa using hend
      rcases hnewline with hnil | hnl
      · rw [hnil] at hc; cases hc
      · rw [hnl, List.mem_singleton] at hc
        rw [hc]
        decide
  · have hdot : e₃.after = '.' :: e₄.after := h₄.1
    rw [show s = opening ++ e₁.after from h₁.1, h₂.1, h₃.1, hdot, h₅, h₆, h₇.1]
    rfl
  · rw [g₇, g₆, g₅, g₄, h₃.consumedBy]

theorem superseded_complete {path : Str} (hne : path ≠ []) (hpath : ∀ c ∈ path, isSpace c = false) :
    ∃ d, d ∈ SUPERSEDED.run ⟨[], statusText path, none⟩ := by
  have hopening : List.Forall₂ (fun p a => p a = true) openingSets "superseded by".toList := by
    have hself : ∀ w : Str, List.Forall₂ (fun p a => p a = true) (w.map fun c => sameLetter c) w := by
      intro w
      induction w with
      | nil => exact .nil
      | cons c w ih => exact .cons (by simp [sameLetter]) ih
    exact hself _
  rw [superseded_eq]
  simp only [run_concat_cons, run_concat_nil, List.mem_flatMap, List.mem_singleton, bos, eos,
    mem_run_look, mem_run_sets, mem_run_plus_set, mem_run_star_set, mem_run_capture, mem_run_lit,
    mem_run_set]
  have hadv : Advances ⟨[], statusText path, none⟩
      ⟨("superseded by".toList ++ (" ".toList ++ (path ++ ".md".toList))).reverse, [], some path⟩
      ("superseded by".toList ++ (" ".toList ++ (path ++ (['.'] ++ (['m'] ++ ['d']))))) :=
    ⟨by rw [statusText_eq, List.append_nil]; rfl, by rw [List.append_nil]; rfl⟩
  obtain ⟨e₁, g₁, h₁, hrest⟩ := hadv.split none
  obtain ⟨e₂, g₂, h₂, hrest⟩ := hrest.split none
  obtain ⟨e₃, g₃, h₃, hrest⟩ := hrest.split none
  obtain ⟨e₄, g₄, h₄, hrest⟩ := Advances.split (c := { e₃ with group := some path }) hrest (some path)
  obtain ⟨e₅, g₅, h₅, h₆⟩ := hrest.split (some path)
  have hcapture : { e₃ with group := some path } = { e₃ with group := some (e₂.consumedBy e₃) } := by
    rw [h₃.consumedBy]
  refine ⟨_, _, ⟨rfl, rfl⟩, e₁, ⟨_, hopening, h₁, g₁⟩, e₂, ⟨_, by simp, by decide, h₂, g₂.trans g₁.symm⟩, _,
    ⟨e₃, ⟨path, hne, by simpa using hpath, h₃, g₃.trans g₂.symm⟩, hcapture⟩, e₄, ⟨h₄, g₄⟩, e₅,
    ⟨'m', by decide, h₅.1, h₅.2, g₅.trans g₄.symm⟩, _, ⟨'d', by decide, h₆.1, h₆.2, g₅.symm⟩, _,
    ⟨[], by simp, Advances.refl _, rfl⟩, _, ⟨rfl, rfl⟩, rfl⟩

theorem span_unique {p : Char → Bool} {u v x y : Str} (hu : ∀ c ∈ u, p c = true)
    (hv : ∀ c ∈ v, p c = true) (hx : ∃ c ∈ x.head?, p c = false) (hy : ∃ c ∈ y.head?, p c = false)
    (h : u ++ x = v ++ y) : u = v ∧ x = y := by
  have htake : ∀ {w z : Str}, (∀ c ∈ w, p c = true) → (∃ c ∈ z.head?, p c = false) →
      (w ++ z).takeWhile p = w := by
    intro w z hw hz
    obtain ⟨c, hc, hpc⟩ := hz
    rw [List.takeWhile_append_of_pos hw]
    cases z with
    | nil => cases hc
    | cons a z =>
        obtain rfl := Option.some.inj hc
        rw [List.takeWhile_cons_of_neg (by simp [hpc]), List.append_nil]
  have huv := congrArg (List.takeWhile p) h
  rw [htake hu hx, htake hv hy] at huv
  rw [huv] at h
  exact ⟨huv, List.append_cancel_left h⟩

theorem superseded_group {path : Str} (hne : path ≠ []) (hpath : ∀ c ∈ path, isSpace c = false)
    {d : Cursor Char} (h : d ∈ SUPERSEDED.run ⟨[], statusText path, none⟩) : groupOf d = path := by
  obtain ⟨opening, gap, g, ext, rest, hlen, hgap, hspace, hg, hword, hext, hrest, hsplit, hgroup⟩ :=
    superseded_sound h
  rw [statusText_eq] at hsplit
  obtain ⟨-, hgaps⟩ := List.append_inj hsplit hlen.symm
  have hhead : ∀ {s t : Str}, s ≠ [] → (∀ c ∈ s, isSpace c = false) →
      ∃ c ∈ (s ++ t).head?, isSpace c = false := by
    intro s t hs hall
    obtain ⟨c, s', rfl⟩ := List.exists_cons_of_ne_nil hs
    exact ⟨c, rfl, hall c (List.mem_cons_self ..)⟩
  obtain ⟨-, hpaths⟩ := span_unique (by decide) hspace (hhead hne hpath) (hhead hg hword) hgaps
  -- no white space follows the extension, so nothing does
  have hnil : rest = [] := by
    by_contra hne'
    obtain ⟨c, rest', rfl⟩ := List.exists_cons_of_ne_nil hne'
    have hmem : c ∈ path ++ ".md".toList := by rw [hpaths]; simp
    have hyes := hrest c (List.mem_cons_self ..)
    rcases List.mem_append.mp hmem with hmem | hmem
    · rw [hpath c hmem] at hyes; cases hyes
    · have hmd : ∀ c ∈ ".md".toList, isSpace c = false := by decide
      rw [hmd c hmem] at hyes
      cases hyes
  rw [hnil, List.append_nil] at hpaths
  rw [groupOf, hgroup]
  exact (List.append_inj_left' hpaths hext.symm).symm

theorem statusInlines_link_iff {path : Str} (hne : path ≠ []) :
    (∃ lead label, statusInlines (statusText path) = lead ++ [.link label (path ++ ".html".toList)]) ↔
      ∀ c ∈ path, isSpace c = false := by
  constructor
  · intro h
    obtain ⟨lead, label, hlink⟩ := h
    unfold statusInlines at hlink
    split at hlink
    · next m hm =>
        have hlast := congrArg List.getLast? hlink
        rw [List.getLast?_concat] at hlast
        obtain ⟨-, hurl⟩ := Inline.link.inj (Option.some.inj hlast)
        obtain ⟨-, -, g, -, -, -, -, -, -, hword, -, -, -, hgroup⟩ := superseded_sound (first_mem hm)
        have hg : groupOf m = path := List.append_cancel_right hurl
        rw [groupOf, hgroup] at hg
        obtain rfl : g = path := hg
        exact hword
    · have hlast := congrArg List.getLast? hlink
      rw [List.getLast?_concat] at hlast
      cases hlast
  · intro hpath
    have hsome := (first_isSome_iff SUPERSEDED [] (statusText path)).mpr
      (superseded_complete hne hpath)
    obtain ⟨m, hm⟩ := Option.isSome_iff_exists.mp hsome
    refine ⟨[.str "superseded by".toList, .space], [.str path], ?_⟩
    rw [statusInlines, hm]
    simp only [superseded_group hne hpath (first_mem hm)]
    rfl

/-- Another page of the directory of `current`, named by a date stem. -/
def Beside (current key : Str) : Prop :=
  key ≠ current ∧ ∃ stem, IsStem stem ∧ key = joinSegs (dirSegs current ++ [stem])

theorem stem_found {path stem text : Str} {init : List Str} (hstem : IsStem stem)
    (hpath : split path = init ++ [stem]) (hstatus : statusText path <:+: text) :
    stem ++ ".md".toList ∈ findall (concat [STEM, lit ".md".toList]) text := by
  obtain ⟨pre, post, rfl⟩ := hstatus
  have hjoin : path = joinSegs (init ++ [stem]) := by rw [← hpath, joinSegs_split]
  rw [statusText_eq]
  by_cases hinit : init = []
  · -- the blank behind the opening stands before the stem
    obtain rfl : path = stem := by simpa [hinit, joinSegs] using hjoin
    have hfound := findall_stem_complete hstem (c := ' ') (by decide) (pre ++ "superseded by".toList) post
    simpa [List.append_assoc] using hfound
  · rw [joinSegs_concat hinit] at hjoin
    have hfound := findall_stem_complete hstem (c := '/') (by decide)
      (pre ++ ("superseded by".toList ++ (" ".toList ++ joinSegs init))) post
    rw [hjoin]
    simpa [List.append_assoc] using hfound

/-- Link and edge of a superseded page agree exactly if the graph holds what the page says,
and the path has no white space and leads to another page of the same directory with a
date stem for a name. -/
theorem status_link_iff (env : Env) (paths : List Source) (P : Page) (Q : Source) (path : Str)
    (hstatus : statusText path <:+: parseFrontmatter P.text) (hpath : PathTo P.key path Q.key) :
    LinkAgrees env paths P path Q.key ↔
      Recorded paths P ∧ (∀ c ∈ path, isSpace c = false) ∧ Beside P.key Q.key := by
  have hP : ∀ n ∈ split P.key, Visible n := fun n => P.source.visible_of_mem_key
  have hQ : ∀ n ∈ split Q.key, Visible n := fun n => Q.visible_of_mem_key
  obtain ⟨init, last, hsplit, -, hkey⟩ := pathTo_spec hP hpath
  have hlast : last ≠ [] := (hQ last (by rw [hkey]; simp)).1.ne_nil
  have hne : path ≠ [] := by
    intro hnil
    rw [hnil] at hsplit
    have hempty : [[]] = init ++ [last] := hsplit
    cases init with
    | nil => exact hlast (List.cons.inj hempty).1.symm
    | cons a init => simp at hempty
  rw [LinkAgrees, statusInlines_link_iff hne, frontEdge_iff, mem_frontOut hP]
  constructor
  · intro h
    obtain ⟨hword, -, hrecorded, hother, stem, hstem, -, hbeside⟩ := h
    exact ⟨hrecorded, hword, hother, stem, hstem, hbeside⟩
  · intro h
    obtain ⟨hrecorded, hword, hother, stem, hstem, hbeside⟩ := h
    refine ⟨hword, leadsTo_of_pathTo hP hpath, hrecorded, hother, stem, hstem, ?_, hbeside⟩
    have hnames : split Q.key = dirSegs P.key ++ [stem] := by
      rw [hbeside]
      refine split_joinSegs (by simp) fun n hn => ?_
      rcases List.mem_append.mp hn with hn | hn
      · exact (dirSegs_visible hP n hn).1.no_slash
      · rw [List.mem_singleton.mp hn]
        exact hstem.visible.1.no_slash
    obtain rfl : last = stem := by
      rw [hkey] at hnames
      exact (List.append_inj' hnames rfl).2 |> List.cons.inj |>.1
    exact stem_found hstem hsplit hstatus

def supersededText (path : Str) : Str := "---\nstatus: ".toList ++ (statusText path ++ "\n---\n".toList)

def logSource (name : Name) (text : Str) (h : IsPage ["changelog".toList, name]) : Source :=
  ⟨_, .ok (ascii text), h⟩

def oldLog : Page :=
  ⟨logSource "20240101-a.md".toList (supersededText "./20240102-b".toList) (by decide),
    supersededText "./20240102-b".toList, by decide +kernel⟩

def newLog : Source := logSource "20240102-b.md".toList [] (by decide)

theorem status_link_iff_log :
    LinkAgrees siteEnv [newLog, oldLog.source] oldLog "./20240102-b".toList newLog.key :=
  (status_link_iff siteEnv [newLog, oldLog.source] oldLog newLog "./20240102-b".toList
    ⟨"\nstatus: ".toList, [], by decide +kernel⟩ ⟨by decide, by decide +kernel⟩).mpr
    ⟨⟨by decide +kernel, oldLog, ⟨by decide +kernel, [newLog], [], rfl, by simp⟩, rfl, rfl⟩,
      by decide, by decide +kernel, "20240102-b".toList,
      ⟨"20240102".toList, "b".toList, by decide, by decide, by decide, by decide, by decide⟩,
      by decide +kernel⟩

def oldRfd : Page :=
  ⟨rfdSource "2001-a".toList (supersededText "../2002-b/index".toList) isPage_linkingTwin,
    supersededText "../2002-b/index".toList, by decide +kernel⟩

def supersededPaths : List Source := [oldRfd.source, other.source]

/-- An RFD that is superseded by another links to it, and no edge is drawn. -/
theorem superseded_edge_is_missing :
    LeadsTo oldRfd.key ("../2002-b/index".toList ++ ".html".toList) other.key ∧
      (∃ graph info, scan siteEnv supersededPaths = .ok graph ∧ graph.get? oldRfd.key = some info ∧
        info.out = []) ∧
      ¬ ∀ (env : Env) (paths : List Source) (P : Page) (Q : Source) (path : Str),
        P.source ∈ paths → Q ∈ paths → statusText path <:+: parseFrontmatter P.text →
          PathTo P.key path Q.key → LinkAgrees env paths P path Q.key := by
  have hnone : frontOut oldRfd.key oldRfd.text = [] := by decide +kernel
  refine ⟨by decide +kernel, ⟨_, _, rfl, rfl, by decide +kernel⟩, fun h => ?_⟩
  obtain ⟨-, -, -, -, -, -, hmem⟩ := h siteEnv supersededPaths oldRfd other.source "../2002-b/index".toList
    (by simp [supersededPaths]) (by simp [supersededPaths]) ⟨"\nstatus: ".toList, [], by decide +kernel⟩
    ⟨by decide, by decide +kernel⟩
  rw [hnone] at hmem
  cases hmem

end DecisionMeta
