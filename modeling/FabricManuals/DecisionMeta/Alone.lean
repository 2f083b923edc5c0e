import FabricManuals.DecisionMeta.Related

/-! # Pages that no other can stand in for

A page that shares neither its key nor its title with another one is found by its title,
whatever the order of the scan. -/
set_option autoImplicit false

namespace DecisionMeta

open FileTree OrderedDict PosixPath

theorem source_of_path {t : Tree} {s s' : Source} (hs : s ∈ glob t) (hs' : s' ∈ glob t)
    (hpath : s.path = s'.path) : s = s' := by
  obtain ⟨-, hbytes⟩ := (mem_glob_iff ..).mp hs
  obtain ⟨-, hbytes'⟩ := (mem_glob_iff ..).mp hs'
  obtain ⟨path, bytes, _⟩ := s
  obtain ⟨path', bytes', _⟩ := s'
  obtain rfl : path = path' := hpath
  obtain rfl : bytes = bytes' := hbytes.trans hbytes'.symm
  rfl

/-- The scan has the page, and no other one under its key. -/
structure Page.Alone (order : List Source) (P : Page) : Prop where
  mem : P.source ∈ order
  scanned : P.Scanned
  unique : ∀ Q : Page, Q.source ∈ order → Q.key = P.key → Q = P

structure Page.AloneTitled (order : List Source) (P : Page) : Prop extends P.Alone order where
  titled : P.title ≠ []
  sole : ∀ Q : Page, Q.source ∈ order → Q.Scanned → Q.title = P.title → Q = P

variable {order : List Source} {P Q : Page}

theorem Page.Alone.get? (h : P.Alone order) : (graphOf order).get? P.key = some P.info := by
  obtain ⟨info, hinfo⟩ := exists_get?_of_page h.mem h.scanned
  obtain ⟨Q, hQ, -, hkey, rfl⟩ := page_of_get? hinfo
  rw [hinfo, h.unique Q hQ hkey]

theorem Page.AloneTitled.firstKey (h : P.AloneTitled order) :
    (graphOf order).firstKey (·.title == P.title) = some P.key := by
  cases hfirst : (graphOf order).firstKey (·.title == P.title) with
  | none =>
      have hno := firstKey_eq_none.mp hfirst _ _ h.toAlone.get?
      simp [Page.info] at hno
  | some k =>
      obtain ⟨info, hinfo, htitle⟩ := firstKey_eq_some hfirst
      obtain ⟨Q, hQ, hscanned, rfl, rfl⟩ := page_of_get? hinfo
      have hsame : Q.title = P.title := by simpa [Page.info] using htitle
      rw [h.sole Q hQ hscanned hsame]

/-- The navigation of such a page is its own, and relates it to its link neighbours. -/
theorem Page.AloneTitled.navigation (h : P.AloneTitled order) (hdecoded : ∀ s ∈ order, ¬ s.Breaks) (env : Env) :
    ∃ nav, navigation env order (some P.title) = .ok (some nav) ∧ nav.current = P.key ∧
      nav.crumb = breadcrumb P.key P.title ∧
      ∀ Q : Page, Q.Alone order → Q ≠ P → '/' ∈ Q.key → (Q.key ∈ nav.related ↔ P.Linked Q) := by
  refine ⟨navAt env (graphOf order) P.title P.key, ?_, rfl, rfl, ?_⟩
  · have hnone : ¬ ∃ s ∈ order, s.Breaks := fun ⟨s, hs, hbreaks⟩ => hdecoded s hs hbreaks
    rw [navigation_eq env order h.titled, if_neg hnone, navOf, h.firstKey]
    rfl
  · intro Q hQ hne hslash
    have hkeys : P.key ≠ Q.key := fun hkey => hne (h.unique Q hQ.mem hkey.symm)
    show Q.key ∈ relatedKeys (graphOf order) P.key ↔ _
    rw [mem_relatedKeys_iff_linked hslash h.toAlone.get? hQ.get?]
    exact and_iff_right hkeys

end DecisionMeta
