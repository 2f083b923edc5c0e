import FabricManuals.DecisionMeta.Related

/-! # What one more file does to the navigation of the others

Every render reads every file, so a file that is related to a page by no link and
no title can still reach it: by failing to decode, or through a page that shares the
title.  `unmoved_iff` says exactly when it does. -/
set_option autoImplicit false

namespace DecisionMeta

open TextFile FileTree OrderedDict PosixPath

/-- The file `F` has a new key, is not linked with `P` either way, and does not bear
its title. -/
structure Unrelated (S : List Source) (P : Page) (F : Source) : Prop where
  fresh : ∀ s ∈ S, s.key ≠ F.key
  unlinked : F.key ∉ P.out
  apart : ∀ F' : Page, F'.source = F → P.key ∉ F'.out ∧ F'.title ≠ P.title

/-- Wherever the scan meets `F`, the page of `P` comes out as without it. -/
def Unmoved (β : Type) (env : Env) (S : List Source) (P : Page) (F : Source) : Prop :=
  ∀ pre post : List Source, (pre ++ post).Perm S → ∀ doc : Doc β, doc.title = some P.title →
    finalize env (pre ++ F :: post) doc = finalize env (pre ++ post) doc

/-- The page has no navigation to lose, or `F` decodes and no page that bears the
title is linked with it. -/
def Harmless (S : List Source) (P : Page) (F : Source) : Prop :=
  P.title = [] ∨ (∃ s ∈ S, s.Breaks) ∨
    (F.Breaks ∧ ∀ R : Page, R.source ∈ S → R.Scanned → R.title = P.title →
      R.key = "index".toList ∧ ∀ Q : Page, Q.source ∈ S → Q.Content → ¬ R.Linked Q) ∨
    (¬ F.Breaks ∧ ∀ F' : Page, F'.source = F → F'.Content → ∀ R : Page, R.source ∈ S →
      R.Scanned → R.title = P.title → ¬ R.Linked F')

def addTo {β : Type} (nav : Navigation) (content : List (Block β)) : List (Block β) :=
  (nav.crumb.map Block.para).toList ++ (content ++ relatedSection nav)

def withHead {β : Type} (doc : Doc β) : List (Block β) :=
  if (headLine doc).isEmpty then doc.content else .para (headLine doc) :: doc.content

theorem finalize_eq {β : Type} (env : Env) (paths : List Source) (doc : Doc β) :
    finalize env paths doc =
      match navigation env paths doc.title with
      | .ok (some nav) => addTo nav (withHead doc)
      | _ => withHead doc := by
  unfold finalize withHead
  cases navigation env paths doc.title with
  | error e => rfl
  | ok nav =>
      cases nav with
      | none => rfl
      | some nav => cases h : nav.crumb <;> simp [addTo, h]

theorem addTo_eq_self_iff {β : Type} (nav : Navigation) (content : List (Block β)) :
    addTo nav content = content ↔ nav.crumb = none ∧ nav.related = [] := by
  constructor
  · intro h
    have hlength := congrArg List.length h
    rw [addTo, List.length_append, List.length_append] at hlength
    have hcrumb : (nav.crumb.map (Block.para (β := β))).toList.length = 0 := by omega
    have hsection : (relatedSection nav : List (Block β)).length = 0 := by omega
    refine ⟨?_, ?_⟩
    · cases hc : nav.crumb with
      | none => rfl
      | some crumb => simp [hc] at hcrumb
    · by_contra hne
      simp [relatedSection, hne] at hsection
  · intro h
    obtain ⟨hcrumb, hrelated⟩ := h
    simp [addTo, relatedSection, hcrumb, hrelated]

theorem length_related_of_addTo_eq {β : Type} {nav nav' : Navigation} {content : List (Block β)}
    (h : addTo nav content = addTo nav' content) (hcrumb : nav.crumb = nav'.crumb)
    (hitems : nav.items.length = nav.related.length)
    (hitems' : nav'.items.length = nav'.related.length) :
    nav.related.length = nav'.related.length := by
  rw [addTo, addTo, hcrumb] at h
  have hsection : (relatedSection nav : List (Block β)) = relatedSection nav' :=
    List.append_cancel_left (List.append_cancel_left h)
  rw [relatedSection, relatedSection] at hsection
  by_cases hnil : nav.related = [] <;> by_cases hnil' : nav'.related = []
  · rw [hnil, hnil']
  · simp [hnil, hnil'] at hsection
  · simp [hnil, hnil'] at hsection
  · rw [if_neg hnil, if_neg hnil'] at hsection
    have := Block.bulletList.inj (List.cons.inj (List.cons.inj hsection).2).1
    rw [← hitems, ← hitems', this]

/-! ## The graph with one more file -/

section Insert
variable {S pre post : List Source} {P : Page} {F : Source}

theorem nodes_insert (pre post : List Source) (F : Source) :
    (pre ++ F :: post).filterMap Source.node? =
      pre.filterMap Source.node? ++ (F.node?.toList ++ post.filterMap Source.node?) := by
  rw [List.filterMap_append, List.filterMap_cons]
  cases F.node? <;> rfl

theorem fst_of_mem_node? {s : Source} {e : Str × Info} (h : e ∈ s.node?.toList) : e.1 = s.key := by
  obtain ⟨X, rfl, -, rfl⟩ := page_of_node? (Option.mem_toList.mp h)
  rfl

theorem get?_insert_ne {k : Str} (hk : k ≠ F.key) :
    (graphOf (pre ++ F :: post)).get? k = (graphOf (pre ++ post)).get? k := by
  have hnone : (Dict.ofList F.node?.toList).get? k = none := by
    rw [get?_eq_none_iff, mem_ofList]
    intro hmem
    obtain ⟨e, he, rfl⟩ := List.mem_map.mp hmem
    exact hk (fst_of_mem_node? he)
  rw [graphOf, nodes_insert, graphOf, List.filterMap_append, get?_ofList_append, get?_ofList_append,
    get?_ofList_append, hnone]
  simp

theorem get?_fresh (hfresh : ∀ s ∈ pre ++ post, s.key ≠ F.key) :
    (graphOf (pre ++ post)).get? F.key = none := by
  cases hget : (graphOf (pre ++ post)).get? F.key with
  | none => rfl
  | some info =>
      obtain ⟨X, hX, -, hkey, -⟩ := page_of_get? hget
      exact absurd hkey (hfresh _ hX)

theorem get?_insert_self {F' : Page} (hF' : F'.Scanned)
    (hfresh : ∀ s ∈ pre ++ post, s.key ≠ F'.key) :
    (graphOf (pre ++ F'.source :: post)).get? F'.key = some F'.info :=
  get?_graphOf_of_last hF' _ _ fun s hs => hfresh s (List.mem_append_right _ hs)

theorem firstKey_insert (hfresh : ∀ s ∈ pre ++ post, s.key ≠ F.key) {title : Str}
    (htitle : ∀ F' : Page, F'.source = F → F'.title ≠ title) :
    (graphOf (pre ++ F :: post)).firstKey (·.title == title) =
      (graphOf (pre ++ post)).firstKey (·.title == title) := by
  have hfilter : ((pre ++ F :: post).filterMap Source.node?).filter (·.1 ≠ F.key) =
      (pre ++ post).filterMap Source.node? := by
    have hkeep : ∀ l : List Source, (∀ s ∈ l, s.key ≠ F.key) →
        (l.filterMap Source.node?).filter (·.1 ≠ F.key) = l.filterMap Source.node? := by
      intro l hl
      refine List.filter_eq_self.mpr fun e he => ?_
      obtain ⟨s, hs, hnode⟩ := List.mem_filterMap.mp he
      simpa [fst_of_mem_node? (by simp [hnode] : e ∈ s.node?.toList)] using hl s hs
    have hdrop : F.node?.toList.filter (·.1 ≠ F.key) = [] :=
      List.filter_eq_nil_iff.mpr fun e he => by simp [fst_of_mem_node? he]
    rw [nodes_insert, List.filter_append, List.filter_append, hdrop, List.nil_append,
      hkeep pre fun s hs => hfresh s (List.mem_append_left _ hs),
      hkeep post fun s hs => hfresh s (List.mem_append_right _ hs), List.filterMap_append]
  rw [graphOf, graphOf, ← hfilter]
  refine (firstKey_ofList_filter fun info hinfo => ?_).symm
  obtain ⟨X, hX, -, hkey, rfl⟩ := page_of_get? hinfo
  rw [beq_eq_false_iff_ne]
  refine htitle X ?_
  rcases List.mem_append.mp hX with hX | hX
  · exact absurd hkey (hfresh _ (List.mem_append_left _ hX))
  · exact (List.mem_cons.mp hX).resolve_right fun h => hfresh _ (List.mem_append_right _ h) hkey

theorem mem_relatedKeys_insert (hfresh : ∀ s ∈ pre ++ post, s.key ≠ F.key) {R : Page}
    (hR : (graphOf (pre ++ post)).get? R.key = some R.info) (k : Str) :
    k ∈ relatedKeys (graphOf (pre ++ F :: post)) R.key ↔
      k ∈ relatedKeys (graphOf (pre ++ post)) R.key ∨
        (k = F.key ∧ ∃ F' : Page, F'.source = F ∧ F'.Content ∧ R.Linked F') := by
  have hne : R.key ≠ F.key := by
    intro e
    rw [e, get?_fresh hfresh] at hR
    cases hR
  have hR' : (graphOf (pre ++ F :: post)).get? R.key = some R.info := (get?_insert_ne hne).trans hR
  by_cases hk : k = F.key
  · subst hk
    have hold : F.key ∉ relatedKeys (graphOf (pre ++ post)) R.key := by
      rw [mem_relatedKeys, get?_fresh hfresh]
      intro h
      obtain ⟨-, -, info, hinfo, -⟩ := h
      cases hinfo
    simp only [hold, false_or, true_and]
    constructor
    · intro hmem
      obtain ⟨-, hslash, info, hinfo, -⟩ := (mem_relatedKeys ..).mp hmem
      obtain ⟨F', hF', hs, hkey, rfl⟩ := page_of_get? hinfo
      have hsource : F'.source = F := by
        rcases List.mem_append.mp hF' with h | h
        · exact absurd hkey (hfresh _ (List.mem_append_left _ h))
        · exact (List.mem_cons.mp h).resolve_right fun h => hfresh _ (List.mem_append_right _ h) hkey
      rw [← hkey] at hmem hinfo hslash
      exact ⟨F', hsource, ⟨hslash, hs⟩, ((mem_relatedKeys_iff_linked hslash hR' hinfo).mp hmem).2⟩
    · intro h
      obtain ⟨F', rfl, hcontent, hlink⟩ := h
      have hget := get?_insert_self hcontent.2 hfresh
      exact (mem_relatedKeys_iff_linked hcontent.1 hR' hget).mpr ⟨hne, hlink⟩
  · rw [mem_relatedKeys, mem_relatedKeys, hR', hR, get?_insert_ne hk]
    simp [hk]

theorem length_related_insert (hfresh : ∀ s ∈ pre ++ post, s.key ≠ F.key) {R F' : Page}
    (hR : (graphOf (pre ++ post)).get? R.key = some R.info) (hF' : F'.source = F)
    (hcontent : F'.Content) (hlink : R.Linked F') :
    (relatedKeys (graphOf (pre ++ F :: post)) R.key).length =
      (relatedKeys (graphOf (pre ++ post)) R.key).length + 1 := by
  have hnew : F.key ∉ relatedKeys (graphOf (pre ++ post)) R.key := by
    rw [mem_relatedKeys, get?_fresh hfresh]
    intro h
    obtain ⟨-, -, info, hinfo, -⟩ := h
    cases hinfo
  have hperm : (relatedKeys (graphOf (pre ++ F :: post)) R.key).Perm
      (F.key :: relatedKeys (graphOf (pre ++ post)) R.key) := by
    refine (List.perm_ext_iff_of_nodup (nodup_relatedKeys ..)
      (List.nodup_cons.mpr ⟨hnew, nodup_relatedKeys ..⟩)).mpr fun k => ?_
    rw [mem_relatedKeys_insert hfresh hR, List.mem_cons, or_comm]
    exact or_congr_left ⟨fun h => h.1, fun h => ⟨h, F', hF', hcontent, hlink⟩⟩
  rw [hperm.length_eq, List.length_cons]

theorem navOf_insert (env : Env) (hfresh : ∀ s ∈ pre ++ post, s.key ≠ F.key) {title : Str}
    (htitle : ∀ F' : Page, F'.source = F → F'.title ≠ title)
    (hlink : ∀ F' : Page, F'.source = F → F'.Content → ∀ R : Page, R.source ∈ pre ++ post →
      R.Scanned → R.title = title → ¬ R.Linked F') :
    navOf env (graphOf (pre ++ F :: post)) title = navOf env (graphOf (pre ++ post)) title := by
  rw [navOf, navOf, firstKey_insert hfresh htitle]
  cases hfirst : (graphOf (pre ++ post)).firstKey (·.title == title) with
  | none => rfl
  | some current =>
      obtain ⟨info, hinfo, hinfoTitle⟩ := firstKey_eq_some hfirst
      obtain ⟨R, hR, hRs, rfl, rfl⟩ := page_of_get? hinfo
      have hsame : relatedKeys (graphOf (pre ++ F :: post)) R.key =
          relatedKeys (graphOf (pre ++ post)) R.key := by
        refine relatedKeys_congr fun k => ?_
        rw [mem_relatedKeys_insert hfresh hinfo]
        apply or_iff_left
        intro h
        obtain ⟨-, F', hF', hcontent, hl⟩ := h
        exact hlink F' hF' hcontent R hR hRs (by simpa [Page.info] using hinfoTitle) hl
      have hitems : ∀ k ∈ relatedKeys (graphOf (pre ++ post)) R.key,
          linkTo env (graphOf (pre ++ F :: post)) R.key k = linkTo env (graphOf (pre ++ post)) R.key k := by
        intro k hk
        obtain ⟨-, -, info', hinfo', -⟩ := (mem_relatedKeys ..).mp hk
        have hne : k ≠ F.key := by
          intro e
          rw [e, get?_fresh hfresh] at hinfo'
          cases hinfo'
        rw [linkTo, linkTo, get?_insert_ne hne]
      rw [Option.map_some, Option.map_some, navAt, navAt, hsame, List.map_congr_left hitems]

theorem exists_breaks_insert :
    (∃ s ∈ pre ++ F :: post, s.Breaks) ↔ F.Breaks ∨ ∃ s ∈ pre ++ post, s.Breaks := by
  simp only [List.mem_append, List.mem_cons]
  constructor
  · intro h
    obtain ⟨s, hs | rfl | hs, h⟩ := h
    · exact Or.inr ⟨s, Or.inl hs, h⟩
    · exact Or.inl h
    · exact Or.inr ⟨s, Or.inr hs, h⟩
  · intro h
    rcases h with h | ⟨s, hs | hs, h⟩
    · exact ⟨F, Or.inr (Or.inl rfl), h⟩
    · exact ⟨s, Or.inl hs, h⟩
    · exact ⟨s, Or.inr (Or.inr hs), h⟩

end Insert

/-! ## Both directions -/

section Unmoved
variable {β : Type} {env : Env} {S : List Source} {P : Page} {F : Source}

theorem not_breaks_of_perm {l l' : List Source} (h : l.Perm l') (hl : ¬ ∃ s ∈ l, s.Breaks) :
    ¬ ∃ s ∈ l', s.Breaks := by
  intro h
  obtain ⟨s, hs, hbreaks⟩ := h
  exact hl ⟨s, h.mem_iff.mpr hs, hbreaks⟩

theorem Harmless.unmoved (h : Harmless S P F) (hu : Unrelated S P F) : Unmoved β env S P F := by
  intro pre post hperm doc hdoc
  have hfresh : ∀ s ∈ pre ++ post, s.key ≠ F.key := fun s hs => hu.fresh s (hperm.mem_iff.mp hs)
  rw [finalize_eq, finalize_eq, hdoc]
  by_cases htitle : P.title = []
  · simp [navigation, htitle]
  rw [navigation_eq env _ htitle, navigation_eq env _ htitle, if_congr exists_breaks_insert rfl rfl]
  by_cases hbreaks : ∃ s ∈ pre ++ post, s.Breaks
  · rw [if_pos hbreaks, if_pos (Or.inr hbreaks)]
  have hS := not_breaks_of_perm hperm hbreaks
  rcases (h.resolve_left htitle).resolve_left hS with ⟨hF, hR⟩ | ⟨hF, hlink⟩
  · -- no navigation with `F`, and none to lose without it
    rw [if_pos (Or.inl hF), if_neg hbreaks, navOf]
    cases hfirst : (graphOf (pre ++ post)).firstKey (·.title == P.title) with
    | none => rfl
    | some current =>
        obtain ⟨info, hinfo, hinfoTitle⟩ := firstKey_eq_some hfirst
        obtain ⟨R, hmem, hRs, rfl, rfl⟩ := page_of_get? hinfo
        obtain ⟨hindex, halone⟩ :=
          hR R (hperm.mem_iff.mp hmem) hRs (by simpa [Page.info] using hinfoTitle)
        have hnil : relatedKeys (graphOf (pre ++ post)) R.key = [] := by
          refine List.eq_nil_iff_forall_not_mem.mpr fun k hk => ?_
          obtain ⟨-, hslash, info', hinfo', -⟩ := (mem_relatedKeys ..).mp hk
          obtain ⟨Q, hQ, hQs, rfl, rfl⟩ := page_of_get? hinfo'
          exact halone Q (hperm.mem_iff.mp hQ) ⟨hslash, hQs⟩
            ((mem_relatedKeys_iff_linked hslash hinfo hinfo').mp hk).2
        exact ((addTo_eq_self_iff ..).mpr ⟨(breadcrumb_eq_none_iff ..).mpr hindex, hnil⟩).symm
  · have hneither : ¬ (F.Breaks ∨ ∃ s ∈ pre ++ post, s.Breaks) := not_or.mpr ⟨hF, hbreaks⟩
    rw [if_neg hneither, if_neg hbreaks,
      navOf_insert env hfresh (fun F' hF' => (hu.apart F' hF').2) fun F' hF' hcontent R hR =>
        hlink F' hF' hcontent R (hperm.mem_iff.mp hR)]

/-- A page that brings nothing of its own, so that only the navigation shows. -/
def bare (title : Str) : Doc β := ⟨none, none, none, none, some title, []⟩

theorem finalize_bare (env : Env) (paths : List Source) {title : Str} (h : title ≠ []) :
    finalize env paths (bare title : Doc β) =
      if ∃ s ∈ paths, s.Breaks then []
      else ((navOf env (graphOf paths) title).map fun nav => addTo nav []).getD [] := by
  have hdoc : (bare title : Doc β).title = some title := rfl
  have hhead : withHead (bare title : Doc β) = [] := rfl
  rw [finalize_eq, hdoc, navigation_eq env paths h, hhead]
  by_cases hbreaks : ∃ s ∈ paths, s.Breaks
  · rw [if_pos hbreaks, if_pos hbreaks]
  · rw [if_neg hbreaks, if_neg hbreaks]
    cases navOf env (graphOf paths) title <;> rfl

theorem Unmoved.exists_run (h : Unmoved β env S P F) (htitle : P.title ≠ [])
    (hS : ¬ ∃ s ∈ S, s.Breaks) {R Q : Page} (hR : R.source ∈ S) (hQ : Q.source ∈ S)
    (hRs : R.Scanned) (hQs : Q.Scanned) (hRt : R.title = P.title) (hsame : R.key = Q.key → R = Q) :
    ∃ order : List Source, order.Perm S ∧ (graphOf order).get? R.key = some R.info ∧
      (graphOf order).get? Q.key = some Q.info ∧
      (graphOf order).firstKey (·.title == P.title) = some R.key ∧
      finalize env (F :: order) (bare P.title : Doc β) =
        addTo (navAt env (graphOf order) P.title R.key) [] := by
  obtain ⟨order, hperm, hfirst, hgetR, hgetQ⟩ := exists_order hR hQ hRs hQs hsame
  rw [hRt] at hfirst
  refine ⟨order, hperm, hgetR, hgetQ, hfirst, ?_⟩
  have hbreaks := not_breaks_of_perm hperm.symm hS
  have hwithout := h [] order hperm (bare P.title) rfl
  rw [List.nil_append] at hwithout
  rw [hwithout, List.nil_append, finalize_bare env order htitle, if_neg hbreaks, navOf, hfirst]
  rfl

theorem Unmoved.of_breaks (h : Unmoved β env S P F) (htitle : P.title ≠ [])
    (hS : ¬ ∃ s ∈ S, s.Breaks) (hF : F.Breaks) {R : Page} (hR : R.source ∈ S) (hRs : R.Scanned)
    (hRt : R.title = P.title) :
    R.key = "index".toList ∧ ∀ Q : Page, Q.source ∈ S → Q.Content → ¬ R.Linked Q := by
  have hlost : ∀ order : List Source, finalize env (F :: order) (bare P.title : Doc β) = [] := by
    intro order
    rw [finalize_bare env _ htitle, if_pos ⟨F, List.mem_cons_self .., hF⟩]
  have hindex : R.key = "index".toList := by
    obtain ⟨order, -, -, -, -, hsome⟩ := h.exists_run htitle hS hR hR hRs hRs hRt fun _ => rfl
    exact (breadcrumb_eq_none_iff ..).mp ((addTo_eq_self_iff ..).mp (hsome.symm.trans (hlost order))).1
  refine ⟨hindex, fun Q hQ hQc hlink => ?_⟩
  have hne : R.key ≠ Q.key := by
    intro e
    have hslash := hQc.1
    rw [← e, hindex] at hslash
    exact absurd hslash (by decide)
  obtain ⟨order, -, hgetR, hgetQ, -, hsome⟩ :=
    h.exists_run htitle hS hR hQ hRs hQc.2 hRt fun e => absurd e hne
  have hnil : relatedKeys (graphOf order) R.key = [] :=
    ((addTo_eq_self_iff ..).mp (hsome.symm.trans (hlost order))).2
  have hmem := (mem_relatedKeys_iff_linked hQc.1 hgetR hgetQ).mpr ⟨hne, hlink⟩
  rw [hnil] at hmem
  exact absurd hmem List.not_mem_nil

theorem Unmoved.of_decodes (h : Unmoved β env S P F) (hu : Unrelated S P F) (htitle : P.title ≠ [])
    (hS : ¬ ∃ s ∈ S, s.Breaks) (hF : ¬ F.Breaks) {F' R : Page} (hF' : F'.source = F)
    (hcontent : F'.Content) (hR : R.source ∈ S) (hRs : R.Scanned) (hRt : R.title = P.title) :
    ¬ R.Linked F' := by
  intro hlink
  obtain ⟨order, hperm, hgetR, -, hfirst, hsome⟩ :=
    h.exists_run htitle hS hR hR hRs hRs hRt fun _ => rfl
  have hfresh : ∀ s ∈ [] ++ order, s.key ≠ F.key := fun s hs => hu.fresh s (hperm.mem_iff.mp hs)
  have hbreaks : ¬ ∃ s ∈ F :: order, s.Breaks := by
    intro h
    obtain ⟨s, hs, hb⟩ := h
    rcases List.mem_cons.mp hs with rfl | hs
    · exact hF hb
    · exact hS ⟨s, hperm.mem_iff.mp hs, hb⟩
  have hfirst' := (firstKey_insert hfresh fun F' hF' => (hu.apart F' hF').2).trans hfirst
  rw [finalize_bare env _ htitle, if_neg hbreaks, navOf,
    show (graphOf (F :: order)).firstKey (·.title == P.title) = some R.key from hfirst'] at hsome
  have hlength : (relatedKeys (graphOf (F :: order)) R.key).length =
      (relatedKeys (graphOf order) R.key).length :=
    length_related_of_addTo_eq hsome rfl (List.length_map ..) (List.length_map ..)
  have hmore : (relatedKeys (graphOf (F :: order)) R.key).length =
      (relatedKeys (graphOf order) R.key).length + 1 :=
    length_related_insert hfresh hgetR hF' hcontent hlink
  omega

theorem unmoved_iff (hu : Unrelated S P F) : Unmoved β env S P F ↔ Harmless S P F := by
  refine ⟨fun h => ?_, fun h => h.unmoved hu⟩
  by_cases htitle : P.title = []
  · exact Or.inl htitle
  by_cases hS : ∃ s ∈ S, s.Breaks
  · exact Or.inr (Or.inl hS)
  refine Or.inr (Or.inr ?_)
  by_cases hF : F.Breaks
  · exact Or.inl ⟨hF, fun R hR hRs hRt => h.of_breaks htitle hS hF hR hRs hRt⟩
  · exact Or.inr ⟨hF, fun F' hF' hcontent R hR hRs hRt =>
      h.of_decodes hu htitle hS hF hF' hcontent hR hRs hRt⟩

end Unmoved

/-- `notes.md` beside the front page, with one byte that no UTF-8 text has. -/
def brokenNotes : Source := ⟨["notes.md".toList], .ok [0xFF], by decide⟩

theorem unrelated_brokenNotes :
    Unrelated [linkingTwin.source, other.source] linkingTwin brokenNotes where
  fresh := by decide +kernel
  unlinked := by decide +kernel
  apart F' hF' := by
    have hdecoded := F'.decoded
    rw [hF', show textOf brokenNotes.bytes = .error .unicodeDecode by decide +kernel] at hdecoded
    cases hdecoded

theorem unmoved_iff_brokenNotes :
    Unmoved Unit siteEnv [linkingTwin.source, other.source] linkingTwin brokenNotes ↔
      Harmless [linkingTwin.source, other.source] linkingTwin brokenNotes :=
  unmoved_iff unrelated_brokenNotes

theorem broken_file_drops_navigation :
    Unrelated [linkingTwin.source, other.source] linkingTwin brokenNotes ∧
      ¬ Unmoved Unit siteEnv [linkingTwin.source, other.source] linkingTwin brokenNotes := by
  refine ⟨unrelated_brokenNotes, fun h => ?_⟩
  have hlength := congrArg List.length (h [] _ (List.Perm.refl _) (bare linkingTwin.title) rfl)
  exact absurd hlength (by decide +kernel)

end DecisionMeta
