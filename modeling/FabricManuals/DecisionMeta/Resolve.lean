import FabricManuals.DecisionMeta.Graph
import FabricManuals.Lib.Place

/-! # Links as walks

`resolve` cuts the query, the fragment and the extension off a target, joins the
rest to the directory of the page and normalises.  That is the walk over the
segments of a relative target, up to a test for two leading dots that also meets
names. -/
set_option autoImplicit false

namespace DecisionMeta

open TextFile FileTree OrderedDict PosixPath

/-- Where the segments of `path` lead: from the root of the site behind a leading
slash, from the directory of the page otherwise. -/
def walkPlace (dir : List Str) (path : Str) : Place :=
  (if isabs path then Place.root else Place.dir dir).walk (split path)

def walkKey (dir : List Str) (path : Str) : Option Str := (walkPlace dir path).key

/-- A query, a fragment, a query with a fragment, or nothing. -/
def IsTail (tail : Str) : Prop := tail = [] ∨ tail.head? = some '?' ∨ tail.head? = some '#'

/-- The walk ends inside the root, below a name that begins with two dots. -/
def BelowDots (dir : List Str) (path : Str) : Prop :=
  (walkPlace dir path).ups = 0 ∧ ∃ name ∈ (walkPlace dir path).names.head?, dotdot <+: name

theorem stripExt_ext {ext : Str} (h : ext ∈ PAGE_EXT) (path : Str) : stripExt (path ++ ext) = path := by
  simp only [PAGE_EXT, List.mem_cons, List.not_mem_nil, or_false] at h
  rcases h with rfl | rfl | rfl
  · exact stripExt_md path
  · exact stripExt_qmd path
  · simp [stripExt, PAGE_EXT, List.isSuffixOf, List.isPrefixOf]

theorem takeWhile_of_notMem {c : Char} {s : Str} (h : c ∉ s) (rest : Str) :
    (s ++ rest).takeWhile (· != c) = s ++ rest.takeWhile (· != c) := by
  rw [List.takeWhile_append_of_pos]
  intro x hx
  have hne : x ≠ c := fun e => h (e ▸ hx)
  simpa using hne

theorem pathPart_tail {s tail : Str} (hhash : '#' ∉ s) (hquery : '?' ∉ s) (htail : IsTail tail) :
    pathPart (s ++ tail) = s := by
  rw [pathPart, takeWhile_of_notMem hhash, takeWhile_of_notMem hquery]
  have hnil : (tail.takeWhile (· != '#')).takeWhile (· != '?') = [] := by
    cases tail with
    | nil => rfl
    | cons c rest =>
        rcases htail with htail | htail | htail
        · cases htail
        · obtain rfl := Option.some.inj htail
          simp
        · obtain rfl := Option.some.inj htail
          simp
  rw [hnil, List.append_nil]

theorem pathPart_target {path ext tail : Str} (hhash : '#' ∉ path) (hquery : '?' ∉ path)
    (hext : ext ∈ PAGE_EXT) (htail : IsTail tail) : stripExt (pathPart (path ++ ext ++ tail)) = path := by
  have hplain : '#' ∉ ext ∧ '?' ∉ ext := by
    revert ext
    decide
  have hhash' : '#' ∉ path ++ ext := by simp [hhash, hplain.1]
  have hquery' : '?' ∉ path ++ ext := by simp [hquery, hplain.2]
  rw [pathPart_tail hhash' hquery' htail, stripExt_ext hext]

theorem isabs_normpath {s : Str} (h : isabs s = true) : isabs (normpath s) = true := by
  have hne : s ≠ [] := by
    intro hnil
    subst hnil
    cases h
  have hpos : initialSlashes s ≠ 0 := by
    unfold initialSlashes
    split
    · decide
    · split <;> decide
  obtain ⟨k, hk⟩ := Nat.exists_eq_succ_of_ne_zero hpos
  rw [normpath, if_neg hne, hk]
  simp [List.replicate_succ, isabs]

theorem not_isabs_join {a b : Str} (ha : isabs a = false) (hb : isabs b = false) :
    isabs (join a b) = false := by
  rw [join, hb, if_neg (by simp)]
  cases a with
  | nil => rw [if_pos (Or.inl rfl), List.nil_append, hb]
  | cons c rest =>
      split
      · simpa [isabs] using ha
      · simpa [isabs] using ha

theorem not_isabs_key {p : Place} (h : ∀ n ∈ p.names, '/' ∉ n) {key : Str} (hkey : p.key = some key) :
    isabs key = false := by
  unfold Place.key at hkey
  split at hkey
  · rw [← Option.some.inj hkey]
    split
    · rfl
    · exact not_isabs_joinSegs fun n hn => ⟨(p.named n hn).1, h n hn⟩
  · cases hkey

theorem dotdot_prefix_joinSegs {name : Str} (hne : name ≠ []) (rest : List Str) :
    dotdot <+: joinSegs (name :: rest) ↔ dotdot <+: name := by
  have hsplit : ∃ w, joinSegs (name :: rest) = name ++ w ∧ (w = [] ∨ w.head? = some '/') := by
    cases rest with
    | nil => exact ⟨[], by simp [joinSegs], Or.inl rfl⟩
    | cons b rest => exact ⟨_, joinSegs_cons_cons .., Or.inr rfl⟩
  obtain ⟨w, hw, hhead⟩ := hsplit
  rw [hw]
  constructor
  · intro h
    cases name with
    | nil => exact absurd rfl hne
    | cons c more =>
        cases more with
        | cons d more => simpa [dotdot, List.cons_prefix_cons] using h
        | nil =>
            -- a single character before the slash leaves no room for the second dot
            rcases hhead with rfl | hhead
            · simpa using h
            · obtain ⟨d, w', rfl⟩ : ∃ d w', w = d :: w' := by
                cases w with
                | nil => cases hhead
                | cons d w' => exact ⟨d, w', rfl⟩
              obtain rfl := Option.some.inj hhead
              simp [dotdot, List.cons_prefix_cons] at h
  · exact fun h => h.trans (List.prefix_append ..)

theorem walkPlace_no_slash {dir : List Str} (hdir : ∀ n ∈ dir, Plain n) (path : Str) :
    ∀ n ∈ (walkPlace dir path).names, '/' ∉ n := by
  unfold walkPlace
  refine Place.no_slash_of_walk _ _ ?_ fun s hs => no_slash_of_mem_split hs
  split
  · simp [Place.root]
  · intro n hn
    rw [(Place.dir_names hdir).2] at hn
    exact (hdir n hn).no_slash

theorem joined_eq {dir : List Str} (hdir : ∀ n ∈ dir, Plain n) {path : Str}
    (hpath : isabs path = false) :
    normpath (join (joinSegs dir) path) =
      if (walkPlace dir path).comps = [] then dot else joinSegs (walkPlace dir path).comps := by
  have hrel : isabs (joinSegs dir) = false :=
    not_isabs_joinSegs fun n hn => ⟨(hdir n hn).ne_nil, (hdir n hn).no_slash⟩
  have hstart : Place.root.walk (split (joinSegs dir)) = Place.dir dir := by
    by_cases hnil : dir = []
    · subst hnil
      rfl
    · rw [split_joinSegs hnil fun n hn => (hdir n hn).no_slash, Place.dir]
  rw [normpath_relative (not_isabs_join hrel hpath), Place.root.walk_split_join _ _ hpath, hstart,
    walkPlace, hpath]
  rfl

theorem resolve_of_path {dir : List Str} {target path : Str}
    (htarget : stripExt (pathPart target) = path) (hpath : path ≠ []) :
    resolve (joinSegs dir) target =
      if dotdot <+: normpath (join (joinSegs dir) path) then none
      else some (normpath (join (joinSegs dir) path)) := by
  have hjoined : (if joinSegs dir ≠ [] then normpath (join (joinSegs dir) path) else normpath path) =
      normpath (join (joinSegs dir) path) := by
    split
    · rfl
    · next hnil =>
        rw [not_not.mp hnil]
        congr 1
        unfold join
        split <;> simp
  rw [resolve, htarget]
  simp only [hjoined, if_neg hpath]
  have hdots : "..".toList = dotdot := rfl
  rw [hdots]
  by_cases hup : dotdot <+: normpath (join (joinSegs dir) path)
  · rw [if_pos hup, if_pos (List.isPrefixOf_iff_prefix.mpr hup)]
  · rw [if_neg hup, if_neg fun h => hup (List.isPrefixOf_iff_prefix.mp h)]

theorem resolve_rooted {dir : List Str} {target path : Str}
    (htarget : stripExt (pathPart target) = path) (hpath : isabs path = true) :
    ∃ key, resolve (joinSegs dir) target = some key ∧ isabs key = true := by
  have hne : path ≠ [] := by
    intro hnil
    subst hnil
    cases hpath
  have habs : isabs (normpath (join (joinSegs dir) path)) = true := by
    rw [join, if_pos hpath]
    exact isabs_normpath hpath
  refine ⟨_, ?_, habs⟩
  rw [resolve_of_path htarget hne, if_neg]
  intro hup
  obtain ⟨rest, hrest⟩ := hup
  rw [← hrest] at habs
  cases habs

theorem resolve_relative_iff {dir : List Str} (hdir : ∀ n ∈ dir, Plain n) {target path : Str}
    (htarget : stripExt (pathPart target) = path) (hne : path ≠ []) (hpath : isabs path = false) :
    resolve (joinSegs dir) target = walkKey dir path ↔ ¬ BelowDots dir path := by
  rw [resolve_of_path htarget hne, joined_eq hdir hpath, walkKey, Place.key, BelowDots, Place.comps]
  have hnamed := (walkPlace dir path).named
  cases hups : (walkPlace dir path).ups with
  | zero =>
      cases hnames : (walkPlace dir path).names with
      | nil => simp [dot, dotdot]
      | cons name rest =>
          rw [hnames] at hnamed
          have hname : name ≠ [] := (hnamed name (List.mem_cons_self ..)).1
          simp [dotdot_prefix_joinSegs hname]
  | succ n =>
      have hup : dotdot <+: joinSegs (List.replicate (n + 1) dotdot ++ (walkPlace dir path).names) := by
        rw [List.replicate_succ, List.cons_append, dotdot_prefix_joinSegs (by decide)]
      have hcomps : List.replicate (n + 1) dotdot ++ (walkPlace dir path).names ≠ [] := by
        simp [List.replicate_succ]
      rw [if_neg hcomps, if_pos hup]
      simp

/-- Resolving is walking for the relative targets that do not end below a name with two
leading dots, and for no others. -/
theorem resolve_walks_iff (dir : List Str) (hdir : ∀ n ∈ dir, Plain n) (path ext tail : Str)
    (hhash : '#' ∉ path) (hquery : '?' ∉ path) (hext : ext ∈ PAGE_EXT) (htail : IsTail tail) :
    resolve (joinSegs dir) (path ++ ext ++ tail) = walkKey dir path ↔
      path ≠ [] ∧ isabs path = false ∧ ¬ BelowDots dir path := by
  have htarget := pathPart_target hhash hquery hext htail
  by_cases hnil : path = []
  · -- nothing but an extension, so the walk stays in the directory
    have hresolve : resolve (joinSegs dir) (path ++ ext ++ tail) = none := by
      rw [resolve, htarget]
      simp [hnil]
    have hplace : walkPlace dir path = Place.dir dir := by
      subst hnil
      exact Place.step_skip _ (Or.inl rfl)
    rw [hresolve, walkKey, hplace, Place.key, if_pos (Place.dir_names hdir).1]
    simp [hnil]
  cases habs : isabs path with
  | true =>
      obtain ⟨key, hkey, hrooted⟩ := @resolve_rooted dir _ _ htarget habs
      rw [hkey]
      constructor
      · intro h
        rw [not_isabs_key (walkPlace_no_slash hdir path) h.symm] at hrooted
        cases hrooted
      · intro h
        cases h.2.1
  | false =>
      rw [resolve_relative_iff hdir htarget hnil habs]
      simp [hnil]

theorem resolve_walks_iff_sibling :
    resolve (joinSegs ["rfd".toList, "2001-a".toList])
        ("../2002-b/./index".toList ++ ".md".toList ++ "?x=1#top".toList) =
      walkKey ["rfd".toList, "2001-a".toList] "../2002-b/./index".toList :=
  (resolve_walks_iff ["rfd".toList, "2001-a".toList]
    (by
      intro n hn
      simp only [List.mem_cons, List.not_mem_nil, or_false] at hn
      rcases hn with rfl | rfl
      · exact ⟨by decide, by decide, by decide, by decide⟩
      · exact ⟨by decide, by decide, by decide, by decide⟩)
    "../2002-b/./index".toList ".md".toList "?x=1#top".toList (by decide) (by decide) (by decide)
    (Or.inr (Or.inl rfl))).mpr
    ⟨by decide, by decide, by unfold BelowDots; decide +kernel⟩

/-- A link from the root of the site keeps its slash, so it is no key. -/
theorem rooted_link_is_lost :
    resolve (joinSegs ["changelog".toList]) ("/rfd/2001-a/index".toList ++ ".md".toList ++ []) =
        some "/rfd/2001-a/index".toList ∧
      walkKey ["changelog".toList] "/rfd/2001-a/index".toList = some "rfd/2001-a/index".toList ∧
      ¬ ∀ dir : List Str, (∀ n ∈ dir, Plain n) → ∀ path ext tail : Str, '#' ∉ path → '?' ∉ path →
        ext ∈ PAGE_EXT → IsTail tail →
          resolve (joinSegs dir) (path ++ ext ++ tail) = walkKey dir path := by
  have hresolve : resolve (joinSegs ["changelog".toList])
      ("/rfd/2001-a/index".toList ++ ".md".toList ++ []) = some "/rfd/2001-a/index".toList := by
    decide +kernel
  have hwalk : walkKey ["changelog".toList] "/rfd/2001-a/index".toList =
      some "rfd/2001-a/index".toList := by
    decide +kernel
  refine ⟨hresolve, hwalk, fun h => ?_⟩
  have hsame := h ["changelog".toList]
    (by
      intro n hn
      obtain rfl := List.mem_singleton.mp hn
      exact ⟨by decide, by decide, by decide, by decide⟩)
    "/rfd/2001-a/index".toList ".md".toList [] (by decide) (by decide) (by decide) (Or.inl rfl)
  rw [hresolve, hwalk] at hsame
  exact absurd hsame (by decide)

end DecisionMeta
