import FabricManuals.DecisionMeta.Model

/-! # The graph a scan builds

The key of a source depends on nothing but its path, so the scan is a sequence of
assignments to the graph, one for each source that is neither skipped nor unreadable,
unless a file it opens does not decode. -/
set_option autoImplicit false

namespace DecisionMeta

open TextFile FileTree OrderedDict PosixPath

theorem stripExt_md (stem : Str) : stripExt (stem ++ ".md".toList) = stem := by
  simp [stripExt, PAGE_EXT, List.isSuffixOf, List.isPrefixOf]

theorem stripExt_qmd (stem : Str) : stripExt (stem ++ ".qmd".toList) = stem := by
  simp [stripExt, PAGE_EXT, List.isSuffixOf, List.isPrefixOf]

def Visible (n : Name) : Prop := Plain n ∧ n.head? ≠ some '.'

theorem IsPage.stem {p : Path} (h : IsPage p) :
    ∃ init stem ext, p = init ++ [stem ++ ext] ∧ (∀ n ∈ init ++ [stem], Visible n) ∧
      ∀ s : Str, stripExt (s ++ ext) = s := by
  obtain ⟨hvisible, n, hn, hext⟩ := h
  obtain ⟨init, rfl⟩ := List.getLast?_eq_some_iff.mp hn
  obtain ⟨stem, ext, rfl, hdot, hstrip⟩ : ∃ stem ext, n = stem ++ ext ∧ ext.head? = some '.' ∧
      ∀ s : Str, stripExt (s ++ ext) = s := by
    rcases hext with ⟨stem, rfl⟩ | ⟨stem, rfl⟩
    · exact ⟨stem, _, rfl, rfl, stripExt_md⟩
    · exact ⟨stem, _, rfl, rfl, stripExt_qmd⟩
  refine ⟨init, stem, ext, rfl, ?_, hstrip⟩
  intro m hm
  rcases List.mem_append.mp hm with hm | hm
  · exact hvisible m (List.mem_append_left _ hm)
  · obtain rfl := List.mem_singleton.mp hm
    obtain ⟨hplain, hhead⟩ := hvisible (m ++ ext) (by simp)
    have hne : m ≠ [] := fun e => hhead (by rw [e, List.nil_append, hdot])
    obtain ⟨c, rest, rfl⟩ := List.exists_cons_of_ne_nil hne
    have hc : c ≠ '.' := fun e => hhead (by simp [e])
    refine ⟨⟨hne, ?_, ?_, ?_⟩, by simpa using hc⟩
    · exact fun e => hc (List.cons.inj e).1
    · exact fun e => hc (List.cons.inj e).1
    · exact fun e => hplain.no_slash (List.mem_append_left _ e)

def Source.key (s : Source) : Str := stripExt (joinSegs s.path)

theorem keyOf_eq (env : Env) (s : Source) : keyOf env s = some s.key := by
  have hne : s.path ≠ [] := by
    obtain ⟨-, n, hn, -⟩ := s.page
    intro e
    simp [e] at hn
  rw [keyOf, relpath_join env.rooted _ hne fun n hn => (s.page.1 n hn).1]
  rfl

theorem Source.key_eq (s : Source) : ∃ segs : List Str, s.key = joinSegs segs ∧ segs ≠ [] ∧
    segs.dropLast = s.path.dropLast ∧ ∀ n ∈ segs, Visible n := by
  obtain ⟨init, stem, ext, hpath, hvisible, hstrip⟩ := s.page.stem
  refine ⟨init ++ [stem], ?_, by simp, by rw [hpath]; simp, hvisible⟩
  rw [Source.key, hpath, ← joinSegs_append_last, hstrip]

theorem Source.visible_of_mem_key (s : Source) {n : Name} (hn : n ∈ split s.key) : Visible n := by
  obtain ⟨segs, hkey, hne, -, hvisible⟩ := s.key_eq
  rw [hkey, split_joinSegs hne fun x hx => (hvisible x hx).1.no_slash] at hn
  exact hvisible n hn

theorem mem_glob_iff (t : Tree) (s : Source) :
    s ∈ glob t ↔ (∃ e, (s.path, e) ∈ t.entries) ∧ s.bytes = t.read s.path := by
  rw [glob, List.mem_filterMap]
  constructor
  · intro h
    obtain ⟨⟨p, e⟩, he, hs⟩ := h
    by_cases hp : IsPage p
    · rw [dif_pos hp] at hs
      obtain rfl := Option.some.inj hs
      exact ⟨⟨e, he⟩, rfl⟩
    · rw [dif_neg hp] at hs
      cases hs
  · intro h
    obtain ⟨⟨e, he⟩, hbytes⟩ := h
    obtain ⟨p, bytes, hp⟩ := s
    obtain rfl : bytes = t.read p := hbytes
    exact ⟨(p, e), he, dif_pos hp⟩

theorem mem_glob_of_file {t : Tree} {p : Path} {bytes : List UInt8} (hp : IsPage p)
    (h : (p, Entry.file bytes) ∈ t.entries) : ⟨p, .ok bytes, hp⟩ ∈ glob t := by
  refine (mem_glob_iff ..).mpr ⟨⟨_, h⟩, ?_⟩
  exact ((read_eq_ok_iff ..).mpr ((find?_eq_some_iff t (t.plain _ h).1 _).mpr h)).symm

def Source.Breaks (s : Source) : Prop :=
  skippedKey s.key = false ∧ textOf s.bytes = .error .unicodeDecode

instance (s : Source) : Decidable s.Breaks := inferInstanceAs (Decidable (_ ∧ _))

def infoOf (key text : Str) : Info := ⟨parseTitle text (basename key), outOf key text⟩

/-- What a source puts into the graph. -/
def Source.node? (s : Source) : Option (Str × Info) :=
  if skippedKey s.key then none
  else
    match textOf s.bytes with
    | .ok text => some (s.key, infoOf s.key text)
    | .error _ => none

def graphOf (paths : List Source) : Dict Str Info := .ofList (paths.filterMap Source.node?)

theorem textOf_ne_value (r : Except OSError (List UInt8)) : textOf r ≠ .error .value := by
  cases r with
  | error e => simp [textOf]
  | ok bytes => cases h : decode bytes <;> simp [textOf, h]

theorem scanPage_of_breaks {env : Env} {s : Source} (h : s.Breaks) (graph : Dict Str Info) :
    scanPage env graph s = .error .unicodeDecode := by
  simp only [scanPage, keyOf_eq, h.1, h.2, Bool.false_eq_true, if_false]

theorem scanPage_of_not_breaks {env : Env} {s : Source} (h : ¬ s.Breaks) (graph : Dict Str Info) :
    scanPage env graph s = .ok (graph.assign s.node?.toList) := by
  simp only [scanPage, keyOf_eq, Source.node?]
  by_cases hskip : skippedKey s.key = true
  · simp [hskip, Dict.assign]
  · have hskip' : skippedKey s.key = false := by simpa using hskip
    simp only [hskip', Bool.false_eq_true, if_false]
    cases htext : textOf s.bytes with
    | ok text => rfl
    | error e =>
        cases e with
        | os e => rfl
        | unicodeDecode => exact absurd ⟨hskip', htext⟩ h
        | value => exact absurd htext (textOf_ne_value _)

theorem scan_eq (env : Env) (paths : List Source) :
    scan env paths =
      if ∃ s ∈ paths, s.Breaks then .error .unicodeDecode else .ok (graphOf paths) := by
  have main : ∀ (paths : List Source) (graph : Dict Str Info),
      paths.foldlM (scanPage env) graph =
        if ∃ s ∈ paths, s.Breaks then .error .unicodeDecode
        else .ok (graph.assign (paths.filterMap Source.node?)) := by
    intro paths
    induction paths with
    | nil => intro graph; simp [Dict.assign, pure, Except.pure]
    | cons s rest ih =>
        intro graph
        rw [List.foldlM_cons]
        by_cases hs : s.Breaks
        · rw [scanPage_of_breaks hs, if_pos ⟨s, List.mem_cons_self .., hs⟩]
          rfl
        · have hiff : (∃ x ∈ s :: rest, x.Breaks) ↔ ∃ x ∈ rest, x.Breaks := by simp [hs]
          have hnode : (s :: rest).filterMap Source.node? =
              s.node?.toList ++ rest.filterMap Source.node? := by
            rw [List.filterMap_cons]
            cases s.node? <;> rfl
          rw [scanPage_of_not_breaks hs, hnode, assign_append]
          exact (ih _).trans (if_congr hiff.symm rfl rfl)
  exact main paths .empty

theorem mem_relatedKeys (graph : Dict Str Info) (current k : Str) :
    k ∈ relatedKeys graph current ↔ k ≠ current ∧ '/' ∈ k ∧
      ∃ info, graph.get? k = some info ∧
        ((∃ here, graph.get? current = some here ∧ k ∈ here.out) ∨ current ∈ info.out) := by
  simp only [relatedKeys, List.mem_insertionSort, List.mem_filter, List.mem_dedup, List.mem_append,
    decide_eq_true_eq, List.mem_map, List.contains_iff_mem, mem_iff_get?]
  have hout : k ∈ ((graph.get? current).map Info.out).getD [] ↔
      ∃ here, graph.get? current = some here ∧ k ∈ here.out := by
    cases graph.get? current <;> simp
  rw [hout]
  constructor
  · intro h
    obtain ⟨hlink, hne, hslash, info, hinfo⟩ := h
    refine ⟨hne, hslash, info, hinfo, hlink.imp id ?_⟩
    intro h
    obtain ⟨e, ⟨he, hcur⟩, rfl⟩ := h
    have : graph.get? e.1 = some e.2 := (get?_eq_some_iff ..).mpr he
    rw [hinfo] at this
    rwa [Option.some.inj this]
  · intro h
    obtain ⟨hne, hslash, info, hinfo, hlink⟩ := h
    refine ⟨hlink.imp id fun hcur => ?_, hne, hslash, info, hinfo⟩
    exact ⟨(k, info), ⟨(get?_eq_some_iff ..).mp hinfo, hcur⟩, rfl⟩

theorem nodup_relatedKeys (graph : Dict Str Info) (current : Str) :
    (relatedKeys graph current).Nodup :=
  (List.perm_insertionSort _ _).nodup_iff.mpr ((List.nodup_dedup _).filter _)

theorem pairwise_relatedKeys (graph : Dict Str Info) (current : Str) :
    (relatedKeys graph current).Pairwise (· < ·) := by
  have hle : (relatedKeys graph current).Pairwise (· ≤ ·) := List.pairwise_insertionSort _ _
  exact hle.imp₂ (fun _ _ hle hne => lt_of_le_of_ne hle hne) (nodup_relatedKeys graph current)

theorem relatedKeys_congr {graph graph' : Dict Str Info} {current : Str}
    (h : ∀ k, k ∈ relatedKeys graph current ↔ k ∈ relatedKeys graph' current) :
    relatedKeys graph current = relatedKeys graph' current :=
  ((List.perm_ext_iff_of_nodup (nodup_relatedKeys ..) (nodup_relatedKeys ..)).mpr h).eq_of_pairwise
    (fun _ _ _ _ => le_antisymm) (List.pairwise_insertionSort _ _) (List.pairwise_insertionSort _ _)

def hrefOf (env : Env) (current key : Str) : Str :=
  (if dirname current ≠ [] then relpath env.cwd key (dirname current) else some key).getD []

def linkTo (env : Env) (graph : Dict Str Info) (current key : Str) : List Inline :=
  [.link [.str (((graph.get? key).map Info.title).getD [])] (hrefOf env current key ++ ".html".toList)]

theorem relatedItem_eq (env : Env) (graph : Dict Str Info) (current : Str) {key : Str} (h : key ≠ []) :
    relatedItem env graph current key = .ok (linkTo env graph current key) := by
  have hsome : ∃ href,
      (if dirname current ≠ [] then relpath env.cwd key (dirname current) else some key) = some href := by
    split
    · rw [relpath, if_neg h]; exact ⟨_, rfl⟩
    · exact ⟨key, rfl⟩
  obtain ⟨href, hhref⟩ := hsome
  simp only [relatedItem, linkTo, hrefOf, hhref, Option.getD_some]

def navAt (env : Env) (graph : Dict Str Info) (title current : Str) : Navigation :=
  ⟨current, relatedKeys graph current, (relatedKeys graph current).map (linkTo env graph current),
    breadcrumb current title⟩

def navOf (env : Env) (graph : Dict Str Info) (title : Str) : Option Navigation :=
  (graph.firstKey (·.title == title)).map (navAt env graph title)

theorem breadcrumb_eq_none_iff (current title : Str) :
    breadcrumb current title = none ↔ current = "index".toList := by
  unfold breadcrumb
  by_cases h : current = "index".toList
  · rw [if_pos h]
    exact iff_of_true rfl h
  · rw [if_neg h]
    exact iff_of_false (fun e => by cases e) h

theorem ne_nil_of_mem_relatedKeys {graph : Dict Str Info} {current k : Str}
    (h : k ∈ relatedKeys graph current) : k ≠ [] := by
  intro e
  obtain ⟨-, hslash, -⟩ := (mem_relatedKeys ..).mp h
  simp [e] at hslash

theorem mapM_relatedItem (env : Env) (graph : Dict Str Info) (current : Str) :
    (relatedKeys graph current).mapM (relatedItem env graph current) =
      .ok ((relatedKeys graph current).map (linkTo env graph current)) := by
  have main : ∀ keys : List Str, (∀ k ∈ keys, k ≠ []) →
      keys.mapM (relatedItem env graph current) = .ok (keys.map (linkTo env graph current)) := by
    intro keys
    induction keys with
    | nil => intro _; rfl
    | cons k rest ih =>
        intro hkeys
        obtain ⟨hk, hrest⟩ := List.forall_mem_cons.mp hkeys
        rw [List.mapM_cons, relatedItem_eq env graph current hk, ih hrest]
        rfl
  exact main _ fun k hk => ne_nil_of_mem_relatedKeys hk

theorem navigation_eq (env : Env) (paths : List Source) {title : Str} (h : title ≠ []) :
    navigation env paths (some title) =
      if ∃ s ∈ paths, s.Breaks then .error .unicodeDecode
      else .ok (navOf env (graphOf paths) title) := by
  simp only [navigation, if_neg h, scan_eq]
  split
  · rfl
  · simp only [bind, Except.bind, navOf]
    cases (graphOf paths).firstKey (·.title == title) with
    | none => rfl
    | some current =>
        simp only [mapM_relatedItem, Option.map_some]
        rfl

structure Page where
  source : Source
  text : Str
  decoded : textOf source.bytes = .ok text

namespace Page

def key (P : Page) : Str := P.source.key
def title (P : Page) : Str := parseTitle P.text (basename P.key)
def out (P : Page) : List Str := outOf P.key P.text
def info (P : Page) : Info := ⟨P.title, P.out⟩

def Scanned (P : Page) : Prop := skippedKey P.key = false

/-- A content page: scanned, and not at the top of the site. -/
def Content (P : Page) : Prop := '/' ∈ P.key ∧ P.Scanned

/-- One of the two links to the other. -/
def Linked (P Q : Page) : Prop := Q.key ∈ P.out ∨ P.key ∈ Q.out

instance (P Q : Page) : Decidable (P.Linked Q) := inferInstanceAs (Decidable (_ ∨ _))
instance (P : Page) : Decidable P.Scanned := inferInstanceAs (Decidable (_ = _))
instance (P : Page) : Decidable P.Content := inferInstanceAs (Decidable (_ ∧ _))

theorem node?_eq (P : Page) (h : P.Scanned) : P.source.node? = some (P.key, P.info) := by
  have hskip : skippedKey P.source.key = false := h
  rw [Source.node?, hskip, P.decoded]
  rfl

theorem eq_of_source {P Q : Page} (h : P.source = Q.source) : P = Q := by
  obtain ⟨s, text, hP⟩ := P
  obtain ⟨s', text', hQ⟩ := Q
  obtain rfl : s = s' := h
  obtain rfl : text = text' := Except.ok.inj (hP.symm.trans hQ)
  rfl

theorem not_breaks (P : Page) : ¬ P.source.Breaks := by
  intro h
  obtain ⟨-, h⟩ := h
  rw [P.decoded] at h
  cases h

end Page

theorem page_of_node? {s : Source} {e : Str × Info} (h : s.node? = some e) :
    ∃ P : Page, P.source = s ∧ P.Scanned ∧ e = (P.key, P.info) := by
  unfold Source.node? at h
  split at h
  · cases h
  · next hskip =>
      split at h
      · next text htext =>
          exact ⟨⟨s, text, htext⟩, rfl, (Bool.not_eq_true _).mp hskip, (Option.some.inj h).symm⟩
      · cases h

theorem page_of_get? {paths : List Source} {k : Str} {info : Info}
    (h : (graphOf paths).get? k = some info) :
    ∃ P : Page, P.source ∈ paths ∧ P.Scanned ∧ P.key = k ∧ P.info = info := by
  obtain ⟨s, hs, hnode⟩ := List.mem_filterMap.mp (mem_of_get?_ofList h)
  obtain ⟨P, rfl, hscanned, heq⟩ := page_of_node? hnode
  obtain ⟨hkey, hinfo⟩ := Prod.mk.inj heq
  exact ⟨P, hs, hscanned, hkey.symm, hinfo.symm⟩

theorem exists_get?_of_page {paths : List Source} {P : Page} (hP : P.source ∈ paths)
    (hscanned : P.Scanned) : ∃ info, (graphOf paths).get? P.key = some info := by
  rw [← mem_iff_get?, graphOf, mem_ofList]
  exact List.mem_map.mpr ⟨_, List.mem_filterMap.mpr ⟨_, hP, P.node?_eq hscanned⟩, rfl⟩

/-- The page is scanned, and no page after it has its key. -/
def Page.LastIn (P : Page) (paths : List Source) : Prop :=
  P.Scanned ∧ ∃ l l', paths = l ++ P.source :: l' ∧
    ∀ X : Page, X.source ∈ l' → X.Scanned → X.key ≠ P.key

/-- The page scanned last among those with its key decides what the graph says. -/
theorem Page.LastIn.get? {P : Page} {paths : List Source} (h : P.LastIn paths) :
    (graphOf paths).get? P.key = some P.info := by
  obtain ⟨hP, l, l', rfl, hlast⟩ := h
  rw [graphOf, List.filterMap_append, List.filterMap_cons_some (P.node?_eq hP)]
  refine get?_ofList_of_last _ _ fun hmem => ?_
  obtain ⟨e, he, hkey⟩ := List.mem_map.mp hmem
  obtain ⟨s, hs, hnode⟩ := List.mem_filterMap.mp he
  obtain ⟨X, rfl, hX, rfl⟩ := page_of_node? hnode
  exact hlast X hs hX hkey

theorem get?_graphOf_of_last {P : Page} (hP : P.Scanned) (l l' : List Source)
    (h : ∀ s ∈ l', s.key ≠ P.key) : (graphOf (l ++ P.source :: l')).get? P.key = some P.info :=
  Page.LastIn.get? ⟨hP, l, l', rfl, fun X hX _ => h X.source hX⟩

theorem exists_lastIn {paths : List Source} {k : Str} {info : Info}
    (h : (graphOf paths).get? k = some info) :
    ∃ X : Page, X.LastIn paths ∧ X.key = k ∧ X.info = info := by
  induction paths using List.reverseRecOn with
  | nil => cases h
  | append_singleton paths s ih =>
      by_cases hs : ∃ X : Page, X.source = s ∧ X.Scanned ∧ X.key = k
      · obtain ⟨X, rfl, hX, rfl⟩ := hs
        have hlast : X.LastIn (paths ++ [X.source]) := ⟨hX, paths, [], rfl, by simp⟩
        exact ⟨X, hlast, rfl, Option.some.inj (hlast.get?.symm.trans h)⟩
      · -- what `s` puts into the graph has another key
        have hnone : (Dict.ofList s.node?.toList).get? k = none := by
          rw [get?_eq_none_iff, mem_ofList]
          intro hmem
          obtain ⟨e, he, rfl⟩ := List.mem_map.mp hmem
          obtain ⟨X, hX, hscanned, rfl⟩ := page_of_node? (Option.mem_toList.mp he)
          exact hs ⟨X, hX, hscanned, rfl⟩
        have hfront : (graphOf paths).get? k = some info := by
          rw [graphOf, List.filterMap_append, get?_ofList_append] at h
          rwa [show [s].filterMap Source.node? = s.node?.toList by cases hn : s.node? <;> simp [hn],
            hnone] at h
        obtain ⟨X, ⟨hX, l, l', rfl, hlast⟩, hkey, hinfo⟩ := ih hfront
        refine ⟨X, ⟨hX, l, l' ++ [s], by simp, fun Y hY hYs hYk => ?_⟩, hkey, hinfo⟩
        rcases List.mem_append.mp hY with hY | hY
        · exact hlast Y hY hYs hYk
        · exact hs ⟨Y, List.mem_singleton.mp hY, hYs, hYk.trans hkey⟩

theorem firstKey_graphOf_of_first {P : Page} (hP : P.Scanned) {twins rest : List Source}
    (htwins : ∀ s ∈ twins, s.key = P.key)
    (hget : (graphOf (twins ++ P.source :: rest)).get? P.key = some P.info) :
    (graphOf (twins ++ P.source :: rest)).firstKey (·.title == P.title) = some P.key := by
  obtain ⟨e, tail, hnodes, hkey⟩ : ∃ e tail,
      (twins ++ P.source :: rest).filterMap Source.node? = e :: tail ∧ e.1 = P.key := by
    rw [List.filterMap_append, List.filterMap_cons_some (P.node?_eq hP)]
    cases hfront : twins.filterMap Source.node? with
    | nil => exact ⟨_, _, rfl, rfl⟩
    | cons e more =>
        obtain ⟨s, hs, hnode⟩ := List.mem_filterMap.mp (hfront ▸ List.mem_cons_self ..)
        obtain ⟨X, rfl, -, rfl⟩ := page_of_node? hnode
        exact ⟨_, _, rfl, htwins _ hs⟩
  rw [graphOf, hnodes] at hget ⊢
  rw [← hkey] at hget ⊢
  exact firstKey_ofList_cons hget (by simp [Page.info])

end DecisionMeta
