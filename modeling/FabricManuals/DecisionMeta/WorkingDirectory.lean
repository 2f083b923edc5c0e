import FabricManuals.DecisionMeta.Finalize
import FabricManuals.DecisionMeta.Urls

/-! # The filter from another directory

Two runs on one machine, anchored at the same absolute directory, each in a working
directory of its own and with the sources met in an order of its own.  Both find the same
sources; where titles and keys tell the pages apart, the graph is a fact about these, and
the relative paths cancel whatever the working directory is. -/
set_option autoImplicit false

namespace DecisionMeta

open TextFile FileTree OrderedDict PosixPath

structure Distinct (paths : List Source) : Prop where
  keys : ∀ P Q : Page, P.source ∈ paths → Q.source ∈ paths → P.Scanned → Q.Scanned →
    P.key = Q.key → P = Q
  titles : ∀ P Q : Page, P.source ∈ paths → Q.source ∈ paths → P.Scanned → Q.Scanned →
    P.title = Q.title → P = Q

/-- Two scans raise the same exception, or their graphs hold the same under each key. -/
def SameGraph : Except PyError (Dict Str Info) → Except PyError (Dict Str Info) → Prop
  | .ok graph, .ok graph' => ∀ k, graph.get? k = graph'.get? k
  | .error e, .error e' => e = e'
  | _, _ => False

section Pages
variable {paths paths' : List Source}

theorem get?_graphOf_iff (h : Distinct paths) (k : Str) (info : Info) :
    (graphOf paths).get? k = some info ↔
      ∃ P : Page, P.source ∈ paths ∧ P.Scanned ∧ P.key = k ∧ P.info = info := by
  constructor
  · exact page_of_get?
  · intro hpage
    obtain ⟨P, hP, hscanned, rfl, rfl⟩ := hpage
    obtain ⟨info', hget⟩ := exists_get?_of_page hP hscanned
    obtain ⟨Q, hQ, hQscanned, hkey, rfl⟩ := page_of_get? hget
    rw [hget, h.keys Q P hQ hP hQscanned hscanned hkey]

theorem firstKey_graphOf_iff (h : Distinct paths) (title k : Str) :
    (graphOf paths).firstKey (·.title == title) = some k ↔
      ∃ P : Page, P.source ∈ paths ∧ P.Scanned ∧ P.key = k ∧ P.title = title := by
  constructor
  · intro hfirst
    obtain ⟨info, hget, htitle⟩ := firstKey_eq_some hfirst
    obtain ⟨P, hP, hscanned, hkey, rfl⟩ := page_of_get? hget
    exact ⟨P, hP, hscanned, hkey, beq_iff_eq.mp htitle⟩
  · intro hpage
    obtain ⟨P, hP, hscanned, rfl, rfl⟩ := hpage
    cases hfirst : (graphOf paths).firstKey (·.title == P.title) with
    | none =>
        have hget := (get?_graphOf_iff h P.key P.info).mpr ⟨P, hP, hscanned, rfl, rfl⟩
        have hne := firstKey_eq_none.mp hfirst P.key P.info hget
        simp [Page.info] at hne
    | some k' =>
        obtain ⟨info, hget, htitle⟩ := firstKey_eq_some hfirst
        obtain ⟨Q, hQ, hQscanned, rfl, rfl⟩ := page_of_get? hget
        rw [h.titles Q P hQ hP hQscanned hscanned (beq_iff_eq.mp htitle)]

variable (h : Distinct paths) (hperm : paths.Perm paths')
include h hperm

theorem Distinct.perm : Distinct paths' where
  keys P Q hP hQ := h.keys P Q (hperm.mem_iff.mpr hP) (hperm.mem_iff.mpr hQ)
  titles P Q hP hQ := h.titles P Q (hperm.mem_iff.mpr hP) (hperm.mem_iff.mpr hQ)

theorem get?_graphOf_perm (k : Str) : (graphOf paths).get? k = (graphOf paths').get? k := by
  ext info
  rw [get?_graphOf_iff h, get?_graphOf_iff (h.perm hperm)]
  simp only [hperm.mem_iff]

theorem firstKey_graphOf_perm (title : Str) :
    (graphOf paths).firstKey (·.title == title) = (graphOf paths').firstKey (·.title == title) := by
  ext k
  rw [firstKey_graphOf_iff h, firstKey_graphOf_iff (h.perm hperm)]
  simp only [hperm.mem_iff]

theorem scan_perm (env env' : Env) : SameGraph (scan env paths) (scan env' paths') := by
  have hbreaks : (∃ s ∈ paths, s.Breaks) ↔ ∃ s ∈ paths', s.Breaks := by simp only [hperm.mem_iff]
  rw [scan_eq, scan_eq, if_congr hbreaks rfl rfl]
  split
  · rfl
  · exact get?_graphOf_perm h hperm

omit h hperm in
theorem hrefOf_env (env env' : Env) {current key : Str} {here there : Info}
    (hcurrent : (graphOf paths).get? current = some here) (hkey : (graphOf paths).get? key = some there) :
    hrefOf env current key = hrefOf env' current key := by
  rw [hrefOf_eq env (visible_of_get? hcurrent) (visible_of_get? hkey),
    hrefOf_eq env' (visible_of_get? hcurrent) (visible_of_get? hkey)]

theorem navAt_perm (env env' : Env) {title current : Str}
    (hcurrent : (graphOf paths).firstKey (·.title == title) = some current) :
    navAt env (graphOf paths) title current = navAt env' (graphOf paths') title current := by
  have hget := get?_graphOf_perm h hperm
  have hrelated : relatedKeys (graphOf paths) current = relatedKeys (graphOf paths') current :=
    relatedKeys_congr fun k => by simp only [mem_relatedKeys, hget]
  have hlinks : (relatedKeys (graphOf paths) current).map (linkTo env (graphOf paths) current) =
      (relatedKeys (graphOf paths) current).map (linkTo env' (graphOf paths') current) := by
    refine List.map_congr_left fun k hk => ?_
    obtain ⟨here, hhere, -⟩ := firstKey_eq_some hcurrent
    obtain ⟨-, -, there, hthere, -⟩ := (mem_relatedKeys ..).mp hk
    rw [linkTo, linkTo, hget, hrefOf_env env env' hhere hthere]
  rw [navAt, navAt, hlinks, hrelated]

theorem navigation_perm (env env' : Env) (title : Option Str) :
    navigation env paths title = navigation env' paths' title := by
  cases title with
  | none => rfl
  | some title =>
      by_cases htitle : title = []
      · simp [navigation, htitle]
      have hbreaks : (∃ s ∈ paths, s.Breaks) ↔ ∃ s ∈ paths', s.Breaks := by simp only [hperm.mem_iff]
      have hnav : navOf env (graphOf paths) title = navOf env' (graphOf paths') title := by
        rw [navOf, navOf, ← firstKey_graphOf_perm h hperm]
        cases hfirst : (graphOf paths).firstKey (·.title == title) with
        | none => rfl
        | some current => exact congrArg some (navAt_perm h hperm env env' hfirst)
      rw [navigation_eq env paths htitle, navigation_eq env' paths' htitle, if_congr hbreaks rfl rfl,
        hnav]

end Pages

structure AnchoredAt (env : Env) (dir : Str) : Prop where
  set : env.projectDir = some dir
  rooted : isabs dir = true

theorem AnchoredAt.projectRoot_eq {env : Env} {dir : Str} (h : AnchoredAt env dir) :
    projectRoot env = dir := by
  obtain ⟨c, rest, rfl⟩ : ∃ c rest, dir = c :: rest := by
    cases dir with
    | nil => cases h.rooted
    | cons c rest => exact ⟨c, rest, rfl⟩
  rw [projectRoot, h.set]

theorem globAt_of_anchored {env env' : Env} {dir : Str} (h : AnchoredAt env dir)
    (h' : AnchoredAt env' dir) (machine : Tree) : globAt env machine = globAt env' machine := by
  simp only [globAt, rootDir, h.projectRoot_eq, h'.projectRoot_eq, h.rooted, if_true]

/-- One site rendered from two working directories: the same graph, and the same page. -/
theorem working_directory_independent {machine : Tree} {env env' : Env} {dir : Str}
    (henv : AnchoredAt env dir) (henv' : AnchoredAt env' dir) {paths paths' : List Source}
    (hpaths : Globbed env machine paths) (hpaths' : Globbed env' machine paths')
    (h : Distinct paths) :
    SameGraph (scan env paths) (scan env' paths') ∧
      ∀ (β : Type) (doc : Doc β), finalize env paths doc = finalize env' paths' doc := by
  have hperm : paths.Perm paths' := by
    have hglob := globAt_of_anchored henv henv' machine
    exact hpaths.perm.trans (hglob ▸ hpaths'.perm.symm)
  refine ⟨scan_perm h hperm env env', fun β doc => ?_⟩
  rw [finalize_eq, finalize_eq, navigation_perm h hperm env env']

def rootEnv : Env := ⟨some "/site".toList, "/site".toList, by decide⟩

theorem distinct_linkingTwin : Distinct [linkingTwin.source, other.source] := by
  have hpages : ∀ P : Page, P.source ∈ [linkingTwin.source, other.source] → P = linkingTwin ∨ P = other := by
    intro P hP
    simp only [List.mem_cons, List.not_mem_nil, or_false] at hP
    exact hP.imp Page.eq_of_source Page.eq_of_source
  constructor
  · intro P Q hP hQ _ _ heq
    rcases hpages P hP with rfl | rfl <;> rcases hpages Q hQ with rfl | rfl
    · rfl
    · exact absurd heq (by decide +kernel)
    · exact absurd heq (by decide +kernel)
    · rfl
  · intro P Q hP hQ _ _ heq
    rcases hpages P hP with rfl | rfl <;> rcases hpages Q hQ with rfl | rfl
    · rfl
    · exact absurd heq (by decide +kernel)
    · exact absurd heq (by decide +kernel)
    · rfl

def siteMachine : Tree where
  entries := [(["site".toList], .dir), (["site".toList, "rfd".toList], .dir),
    (["site".toList, "rfd".toList, "2001-a".toList], .dir),
    ("site".toList :: linkingTwin.source.path, .file (ascii twinText)),
    (["site".toList, "rfd".toList, "2002-b".toList], .dir),
    ("site".toList :: other.source.path, .file (ascii "# Other\n".toList))]
  nodup := by decide
  plain := by decide
  closed := by decide

theorem globbed_siteEnv : Globbed siteEnv siteMachine [linkingTwin.source, other.source] :=
  ⟨by decide, List.Perm.refl _⟩

theorem globbed_rootEnv : Globbed rootEnv siteMachine [other.source, linkingTwin.source] :=
  ⟨by decide, List.Perm.swap _ _ _⟩

theorem working_directory_independent_linkingTwin :
    SameGraph (scan siteEnv [linkingTwin.source, other.source])
        (scan rootEnv [other.source, linkingTwin.source]) ∧
      ∀ (β : Type) (doc : Doc β), finalize siteEnv [linkingTwin.source, other.source] doc =
        finalize rootEnv [other.source, linkingTwin.source] doc :=
  working_directory_independent ⟨rfl, by decide⟩ ⟨rfl, by decide⟩ globbed_siteEnv globbed_rootEnv
    distinct_linkingTwin

end DecisionMeta
