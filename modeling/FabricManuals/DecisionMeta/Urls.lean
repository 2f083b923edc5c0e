import FabricManuals.DecisionMeta.Related

/-! # Where the links of a Related section lead

The emitted URL is a relative path with `.html` glued to its end.  That names the
page, unless the relative path only climbs: then the ending lands on its last dots. -/
set_option autoImplicit false

namespace DecisionMeta

open TextFile FileTree OrderedDict PosixPath

def dirSegs (key : Str) : List Str := (split key).dropLast

/-- From the page `current`, `url` leads to the page file of `key`. -/
def LeadsTo (current url key : Str) : Prop :=
  urlTarget (dirSegs current) url = split (key ++ ".html".toList)

instance (current url key : Str) : Decidable (LeadsTo current url key) :=
  inferInstanceAs (Decidable (_ = _))

theorem dirname_key {key : Str} (h : ∀ n ∈ split key, Visible n) :
    dirname key = joinSegs (dirSegs key) := by
  have := dirname_joinSegs fun n hn => (h n hn).1
  rwa [joinSegs_split] at this

theorem hrefOf_eq (env : Env) {current key : Str} (hcurrent : ∀ n ∈ split current, Visible n)
    (hkey : ∀ n ∈ split key, Visible n) :
    hrefOf env current key = relHref (dirSegs current) (split key) := by
  have hplain : ∀ n ∈ split key, Plain n := fun n hn => (hkey n hn).1
  have hdir : ∀ n ∈ dirSegs current, Plain n := fun n hn => (hcurrent n (List.mem_of_mem_dropLast hn)).1
  rw [hrefOf, dirname_key hcurrent]
  by_cases hnil : dirSegs current = []
  · have hrel : relSegs [] (split key) = split key := by simp [relSegs, commonPrefix]
    rw [hnil, if_neg (by simp [joinSegs]), relHref, hrel, if_neg (split_ne_nil key), joinSegs_split]
    rfl
  · have hne : key ≠ [] := by
      have := joinSegs_ne_nil (split_ne_nil key) hplain
      rwa [joinSegs_split] at this
    have habs := absParts_joinSegs env.rooted hplain
    rw [joinSegs_split] at habs
    rw [if_pos (joinSegs_ne_nil hnil hdir), relpath_eq hne (absParts_joinSegs env.rooted hdir) habs hplain]
    rfl

theorem split_append_html {key : Str} (h : ∀ n ∈ split key, Visible n) :
    ∃ init last, split key = init ++ [last] ∧ Visible last ∧
      split (key ++ ".html".toList) = init ++ [last ++ ".html".toList] ∧
      Plain (last ++ ".html".toList) := by
  obtain ⟨init, last, hsplit⟩ : ∃ init last, split key = init ++ [last] :=
    ⟨_, _, (List.dropLast_append_getLast (split_ne_nil key)).symm⟩
  have hlast : Visible last := h last (by rw [hsplit]; simp)
  obtain ⟨c, rest, rfl⟩ := List.exists_cons_of_ne_nil hlast.1.ne_nil
  have hc : c ≠ '.' := by simpa using hlast.2
  have hhtml : Plain ((c :: rest) ++ ".html".toList) := by
    refine ⟨by simp, fun e => hc (List.cons.inj e).1, fun e => hc (List.cons.inj e).1, ?_⟩
    rw [List.mem_append, not_or]
    exact ⟨hlast.1.no_slash, by decide⟩
  have hslash : ∀ n ∈ init ++ [(c :: rest) ++ ".html".toList], '/' ∉ n := by
    intro n hn
    rcases List.mem_append.mp hn with hn | hn
    · exact (h n (by rw [hsplit]; exact List.mem_append_left _ hn)).1.no_slash
    · rw [List.mem_singleton.mp hn]; exact hhtml.no_slash
  refine ⟨init, c :: rest, hsplit, hlast, ?_, hhtml⟩
  rw [← joinSegs_split key, hsplit, joinSegs_append_last, split_joinSegs (by simp) hslash]

/-- The URL is right exactly when the page is neither the directory of the current
one nor above it. -/
theorem leadsTo_hrefOf_iff (env : Env) {current key : Str} (hcurrent : ∀ n ∈ split current, Visible n)
    (hkey : ∀ n ∈ split key, Visible n) :
    LeadsTo current (hrefOf env current key ++ ".html".toList) key ↔
      ¬ split key <+: dirSegs current := by
  obtain ⟨init, last, hsplit, hlast, hhtml, hplain⟩ := split_append_html hkey
  rw [LeadsTo, hrefOf_eq env hcurrent hkey, hhtml]
  constructor
  · intro hurl hstart
    obtain ⟨base, up, hup, htarget⟩ :=
      urlTarget_relHref_of_prefix (w := ".html".toList) (by decide) hstart
    rw [htarget] at hurl
    have hend := (List.append_inj' hurl rfl).2
    have hhead := congrArg List.head? (List.cons.inj hend).1
    obtain ⟨c, rest, rfl⟩ := List.exists_cons_of_ne_nil hlast.1.ne_nil
    refine hlast.2 ?_
    simp only [List.mem_cons, List.not_mem_nil, or_false] at hup
    rcases hup with rfl | rfl <;> simpa [dot, dotdot, eq_comm] using hhead
  · intro h
    rw [hsplit] at h ⊢
    refine urlTarget_relHref (fun n hn => ?_) hplain h
    exact (hkey n (by rw [hsplit]; exact List.mem_append_left _ hn)).1

theorem visible_of_get? {paths : List Source} {k : Str} {info : Info}
    (h : (graphOf paths).get? k = some info) : ∀ n ∈ split k, Visible n := by
  obtain ⟨P, -, -, rfl, -⟩ := page_of_get? h
  exact fun n => P.source.visible_of_mem_key

theorem navigation_spec {env : Env} {paths : List Source} {title : Str} {nav : Navigation}
    (h : navigation env paths (some title) = .ok (some nav)) :
    navOf env (graphOf paths) title = some nav := by
  by_cases htitle : title = []
  · simp [navigation, htitle] at h
  · rw [navigation_eq env paths htitle] at h
    split at h
    · cases h
    · exact Except.ok.inj h

theorem related_url_iff (env : Env) (paths : List Source) (title : Str) (nav : Navigation)
    (h : navigation env paths (some title) = .ok (some nav)) :
    List.Forall₂ (fun key item => ∃ name url, item = [.link [.str name] url] ∧
      (LeadsTo nav.current url key ↔ ¬ split key <+: dirSegs nav.current)) nav.related nav.items := by
  obtain ⟨current, hfirst, rfl⟩ := Option.map_eq_some_iff.mp (navigation_spec h)
  obtain ⟨info, hinfo, -⟩ := firstKey_eq_some hfirst
  rw [navAt, List.forall₂_map_right_iff, List.forall₂_same]
  intro key hkey
  obtain ⟨-, -, info', hinfo', -⟩ := (mem_relatedKeys ..).mp hkey
  exact ⟨_, _, rfl, leadsTo_hrefOf_iff env (visible_of_get? hinfo) (visible_of_get? hinfo')⟩

theorem related_url_iff_twin : ∃ nav,
    navigation siteEnv [linkingTwin.source, other.source] (some "Twin".toList) = .ok (some nav) ∧
      List.Forall₂ (fun key item => ∃ name url, item = [.link [.str name] url] ∧
        (LeadsTo nav.current url key ↔ ¬ split key <+: dirSegs nav.current)) nav.related nav.items := by
  have hrelated : relatedOf siteEnv [linkingTwin.source, other.source] "Twin".toList ≠ [] := by
    decide +kernel
  unfold relatedOf at hrelated
  split at hrelated
  · next nav hnav => exact ⟨nav, hnav, related_url_iff _ _ _ nav hnav⟩
  · exact absurd rfl hrelated

def RelatedUrlsLead (env : Env) (paths : List Source) (title : Str) : Prop :=
  ∀ nav, navigation env paths (some title) = .ok (some nav) →
    List.Forall₂ (fun key item => ∃ name url, item = [.link [.str name] url] ∧
      LeadsTo nav.current url key) nav.related nav.items

/-- `rfd/2001-a/index.md`, linking to `rfd/2001-a.md` beside its folder. -/
def folderSources : List Source :=
  [rfdSource "2001-a".toList "# Inner\n\nSee [outer](../2001-a.md).\n".toList isPage_linkingTwin,
    ⟨["rfd".toList, "2001-a.md".toList], .ok (ascii "# Outer\n".toList), by decide⟩]

theorem folder_url_is_lost : ¬ RelatedUrlsLead siteEnv folderSources "Inner".toList := by
  have hbreaks : ¬ ∃ s ∈ folderSources, s.Breaks := by decide +kernel
  have hfirst : (graphOf folderSources).firstKey (·.title == "Inner".toList) =
      some "rfd/2001-a/index".toList := by decide +kernel
  have hkeys : relatedKeys (graphOf folderSources) "rfd/2001-a/index".toList = ["rfd/2001-a".toList] := by
    decide +kernel
  intro h
  have hitems := h _ (by rw [navigation_eq _ _ (by decide), if_neg hbreaks, navOf, hfirst]; rfl)
  simp only [navAt, hkeys, List.map_cons, List.map_nil, List.forall₂_cons] at hitems
  obtain ⟨⟨name, url, hitem, hleads⟩, -⟩ := hitems
  obtain ⟨-, rfl⟩ := Inline.link.inj (List.cons.inj hitem).1
  exact absurd hleads (by decide +kernel)

end DecisionMeta
