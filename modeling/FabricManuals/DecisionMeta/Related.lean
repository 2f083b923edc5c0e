import FabricManuals.DecisionMeta.Order

/-! # Related sections and the link neighbourhood

A page is found again by its title and reached by its key, so a page with the same
title, or one with the same key, can stand in for it.  `listsNeighbourhood_iff` says
for which sets of pages no stand-in changes a Related section, over all orders in
which the set may be scanned. -/
set_option autoImplicit false

namespace DecisionMeta

open TextFile FileTree OrderedDict PosixPath

def relatedOf (env : Env) (order : List Source) (title : Str) : List Str :=
  match navigation env order (some title) with
  | .ok (some nav) => nav.related
  | _ => []

/-- Whatever the order of the scan, a content page lists another once if one of the
two links to the other, and else not at all. -/
def ListsNeighbourhood (env : Env) (S : List Page) : Prop :=
  ∀ order : List Source, order.Perm (S.map Page.source) →
    ∀ P ∈ S, ∀ Q ∈ S, P ≠ Q → P.Content → Q.Content →
      (relatedOf env order P.title).count Q.key = if P.Linked Q then 1 else 0

/-- No page that stands in for `P` by title or for `Q` by key is linked otherwise. -/
structure StandInsAgree (S : List Page) (P Q : Page) : Prop where
  found : P.Linked Q → P.title ≠ [] ∧
    ∃ R ∈ S, R.Scanned ∧ R.title = P.title ∧ ∀ R' ∈ S, R'.key = R.key → R'.title = P.title
  agree : P.title ≠ [] → ∀ R ∈ S, ∀ Q' ∈ S, R.Scanned → R.title = P.title → Q'.key = Q.key →
    (R.key = Q'.key → R = Q') → (P.Linked Q ↔ R.key ≠ Q.key ∧ R.Linked Q')

theorem not_exists_breaks {S : List Page} {order : List Source}
    (h : order.Perm (S.map Page.source)) : ¬ ∃ s ∈ order, s.Breaks := by
  intro h
  obtain ⟨s, hs, hbreaks⟩ := h
  obtain ⟨P, -, rfl⟩ := List.mem_map.mp (h.mem_iff.mp hs)
  exact P.not_breaks hbreaks

theorem mem_relatedOf (env : Env) {order : List Source} (hbreaks : ¬ ∃ s ∈ order, s.Breaks)
    (title k : Str) :
    k ∈ relatedOf env order title ↔ title ≠ [] ∧
      ∃ current, (graphOf order).firstKey (·.title == title) = some current ∧
        k ∈ relatedKeys (graphOf order) current := by
  by_cases htitle : title = []
  · simp [relatedOf, navigation, htitle]
  · rw [relatedOf, navigation_eq env _ htitle, if_neg hbreaks, navOf]
    cases (graphOf order).firstKey (·.title == title) <;> simp [htitle, navAt]

theorem nodup_relatedOf (env : Env) (order : List Source) (title : Str) :
    (relatedOf env order title).Nodup := by
  unfold relatedOf
  split
  · next nav hnav =>
      by_cases htitle : title = []
      · simp [navigation, htitle] at hnav
      · rw [navigation_eq env _ htitle] at hnav
        split at hnav
        · cases hnav
        · obtain ⟨current, -, rfl⟩ := Option.map_eq_some_iff.mp (Except.ok.inj hnav)
          exact nodup_relatedKeys ..
  · exact List.nodup_nil

theorem count_eq_ite_iff {l : List Str} (h : l.Nodup) (k : Str) (p : Prop) [Decidable p] :
    l.count k = (if p then 1 else 0) ↔ (k ∈ l ↔ p) := by
  by_cases hk : k ∈ l
  · by_cases hp : p <;> simp [hk, hp, List.count_eq_one_of_mem h hk]
  · by_cases hp : p <;> simp [hk, hp, List.count_eq_zero_of_not_mem hk]

theorem mem_relatedKeys_iff_linked {graph : Dict Str Info} {R Q : Page} (hQ : '/' ∈ Q.key)
    (hgetR : graph.get? R.key = some R.info) (hgetQ : graph.get? Q.key = some Q.info) :
    Q.key ∈ relatedKeys graph R.key ↔ R.key ≠ Q.key ∧ R.Linked Q := by
  rw [mem_relatedKeys]
  constructor
  · intro h
    obtain ⟨hne, -, info, hinfo, hlink⟩ := h
    obtain rfl : Q.info = info := Option.some.inj (hgetQ.symm.trans hinfo)
    refine ⟨Ne.symm hne, hlink.imp (fun ⟨here, hhere, hout⟩ => ?_) id⟩
    obtain rfl : R.info = here := Option.some.inj (hgetR.symm.trans hhere)
    exact hout
  · intro h
    obtain ⟨hne, hlink⟩ := h
    exact ⟨Ne.symm hne, hQ, Q.info, hgetQ, hlink.imp (fun hout => ⟨R.info, hgetR, hout⟩) id⟩

theorem mem_of_get? {S : List Page} {order : List Source} (h : order.Perm (S.map Page.source))
    {k : Str} {info : Info} (hget : (graphOf order).get? k = some info) :
    ∃ P ∈ S, P.Scanned ∧ P.key = k ∧ P.info = info := by
  obtain ⟨P, hP, hscanned, hkey, hinfo⟩ := page_of_get? hget
  obtain ⟨P', hP', hsource⟩ := List.mem_map.mp (h.mem_iff.mp hP)
  exact ⟨P, Page.eq_of_source hsource ▸ hP', hscanned, hkey, hinfo⟩

theorem StandInsAgree.mem_iff {S : List Page} {P Q : Page} (h : StandInsAgree S P Q) (env : Env)
    {order : List Source} (hperm : order.Perm (S.map Page.source)) (hQ : Q ∈ S)
    (hcontent : Q.Content) : Q.key ∈ relatedOf env order P.title ↔ P.Linked Q := by
  have hget : ∀ R ∈ S, R.Scanned → ∃ info, (graphOf order).get? R.key = some info :=
    fun R hR => exists_get?_of_page (hperm.mem_iff.mpr (List.mem_map.mpr ⟨R, hR, rfl⟩))
  rw [mem_relatedOf env (not_exists_breaks hperm)]
  by_cases htitle : P.title = []
  · exact ⟨fun hmem => absurd htitle hmem.1, fun hlink => absurd htitle (h.found hlink).1⟩
  cases hfirst : (graphOf order).firstKey (·.title == P.title) with
  | none =>
      refine ⟨fun ⟨_, _, hsome, _⟩ => (by cases hsome), fun hlink => ?_⟩
      obtain ⟨-, R, hR, hRs, -, htwins⟩ := h.found hlink
      obtain ⟨info, hinfo⟩ := hget R hR hRs
      obtain ⟨R', hR', -, hkey, rfl⟩ := mem_of_get? hperm hinfo
      have := firstKey_eq_none.mp hfirst _ _ hinfo
      simp [Page.info, htwins R' hR' hkey] at this
  | some current =>
      obtain ⟨info, hinfo, htitle'⟩ := firstKey_eq_some hfirst
      obtain ⟨R, hR, hRs, rfl, rfl⟩ := mem_of_get? hperm hinfo
      obtain ⟨Q', hQ', -, hkey, hgetQ, hsame⟩ : ∃ Q' ∈ S, Q'.Scanned ∧ Q'.key = Q.key ∧
          (graphOf order).get? Q.key = some Q'.info ∧ (R.key = Q'.key → R = Q') := by
        by_cases hRQ : R.key = Q.key
        · exact ⟨R, hR, hRs, hRQ, hRQ ▸ hinfo, fun _ => rfl⟩
        · obtain ⟨info', hinfo'⟩ := hget Q hQ hcontent.2
          obtain ⟨Q', hQ', hQs, hkey, rfl⟩ := mem_of_get? hperm hinfo'
          exact ⟨Q', hQ', hQs, hkey, hinfo', fun e => absurd (e.trans hkey) hRQ⟩
      have hslash : '/' ∈ Q'.key := hkey ▸ hcontent.1
      rw [h.agree htitle R hR Q' hQ' hRs (by simpa [Page.info] using htitle') hkey hsame, ← hkey,
        ← mem_relatedKeys_iff_linked hslash hinfo (hkey ▸ hgetQ)]
      simp [htitle]

theorem exists_order_unfound {S : List Page} (title : Str)
    (h : ∀ R ∈ S, R.Scanned → R.title = title → ∃ R' ∈ S, R'.key = R.key ∧ R'.title ≠ title) :
    ∃ order : List Source, order.Perm (S.map Page.source) ∧
      (graphOf order).firstKey (·.title == title) = none := by
  let titled := S.filter fun X => X.title = title
  let others := S.filter fun X => ¬ X.title = title
  have hperm : (titled ++ others).Perm S := by
    simpa [titled, others] using List.filter_append_perm (fun X : Page => decide (X.title = title)) S
  refine ⟨(titled ++ others).map Page.source, hperm.map _, firstKey_eq_none.mpr fun k info hinfo => ?_⟩
  rw [beq_eq_false_iff_ne]
  intro htitle
  obtain ⟨R, hR, hRs, rfl, rfl⟩ := mem_of_get? (hperm.map _) hinfo
  obtain ⟨R', hR', hkey, hne⟩ := h R hR hRs htitle
  have hother : R'.source ∈ others.map Page.source :=
    List.mem_map.mpr ⟨R', by simp [others, hR', hne], rfl⟩
  have hRs' : R'.Scanned := by rw [Page.Scanned, hkey]; exact hRs
  obtain ⟨info', hinfo'⟩ := exists_get?_of_page hother hRs'
  have hlast : (graphOf ((titled ++ others).map Page.source)).get? R.key = some info' := by
    rw [graphOf, List.map_append, List.filterMap_append, get?_ofList_append, ← hkey,
      show (Dict.ofList (List.filterMap Source.node? (others.map Page.source))).get? R'.key = _ from hinfo']
    rfl
  obtain rfl : R.info = info' := Option.some.inj (hinfo.symm.trans hlast)
  obtain ⟨X, hX, -, -, hXinfo⟩ := mem_of_get? (List.Perm.refl (others.map Page.source)) hinfo'
  have hXtitle : X.title ≠ title := by simpa using (List.mem_filter.mp hX).2
  exact hXtitle (by rw [show X.title = X.info.title from rfl, hXinfo]; exact htitle)

theorem listsNeighbourhood_iff (env : Env) (S : List Page) :
    ListsNeighbourhood env S ↔
      ∀ P ∈ S, ∀ Q ∈ S, P ≠ Q → P.Content → Q.Content → StandInsAgree S P Q := by
  constructor
  · intro h P hP Q hQ hne hPc hQc
    have hmem : ∀ order : List Source, order.Perm (S.map Page.source) →
        (Q.key ∈ relatedOf env order P.title ↔ P.Linked Q) := fun order hperm =>
      (count_eq_ite_iff (nodup_relatedOf ..) _ _).mp (h order hperm P hP Q hQ hne hPc hQc)
    have hread := fun order hperm =>
      (mem_relatedOf env (not_exists_breaks hperm) P.title Q.key).symm.trans (hmem order hperm)
    refine ⟨fun hlink => ?_, fun htitle R hR Q' hQ' hRs hRt hkey hsame => ?_⟩
    · refine ⟨((hread _ (List.Perm.refl _)).mpr hlink).1, ?_⟩
      by_contra hnone
      push Not at hnone
      obtain ⟨order, hperm, hfirst⟩ := exists_order_unfound P.title hnone
      obtain ⟨-, current, hsome, -⟩ := (hread order hperm).mpr hlink
      rw [hfirst] at hsome
      cases hsome
    · have hQs : Q'.Scanned := by rw [Page.Scanned, hkey]; exact hQc.2
      obtain ⟨order, hperm, hfirst, hgetR, hgetQ⟩ :=
        exists_order (List.mem_map.mpr ⟨R, hR, rfl⟩) (List.mem_map.mpr ⟨Q', hQ', rfl⟩) hRs hQs hsame
      rw [hRt] at hfirst
      have hslash : '/' ∈ Q'.key := hkey ▸ hQc.1
      rw [← hread order hperm, hfirst, ← hkey, ← mem_relatedKeys_iff_linked hslash hgetR hgetQ]
      simp [htitle]
  · intro h order hperm P hP Q hQ hne hPc hQc
    rw [count_eq_ite_iff (nodup_relatedOf ..)]
    exact (h P hP Q hQ hne hPc hQc).mem_iff env hperm hQ hQc

def siteEnv : Env := ⟨some "/site".toList, "/site/rfd".toList, by decide⟩

def rfdSource (dir : Name) (text : Str) (h : IsPage ["rfd".toList, dir, "index.md".toList]) :
    Source := ⟨["rfd".toList, dir, "index.md".toList], .ok (ascii text), h⟩

def twinText : Str := "# Twin\n\nSee [b](../2002-b/index.md).\n".toList

theorem isPage_linkingTwin : IsPage ["rfd".toList, "2001-a".toList, "index.md".toList] := by decide

def linkingTwin : Page := ⟨rfdSource "2001-a".toList twinText isPage_linkingTwin, twinText, by decide +kernel⟩

def other : Page :=
  ⟨rfdSource "2002-b".toList "# Other\n".toList (by decide), "# Other\n".toList, by decide +kernel⟩

def silentTwin : Page :=
  ⟨rfdSource "2003-c".toList "# Twin\n".toList (by decide), "# Twin\n".toList, by decide +kernel⟩

theorem twin_titles_break_related : ¬ ListsNeighbourhood siteEnv [silentTwin, linkingTwin, other] := by
  intro h
  have hdiffer : linkingTwin ≠ other := fun e => absurd (congrArg Page.key e) (by decide +kernel)
  have hcount := h _ (List.Perm.refl _) linkingTwin (by simp) other (by simp) hdiffer
    (by decide +kernel) (by decide +kernel)
  exact absurd hcount (by decide +kernel)

end DecisionMeta
