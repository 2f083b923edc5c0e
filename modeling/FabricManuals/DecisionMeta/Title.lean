import FabricManuals.DecisionMeta.Graph
import FabricManuals.Lib.FirstMatch

/-! # The title the filter reads

The title is taken from the front matter with a pattern: the first line that begins
with the field, without the white space at both ends and without one pair of quotes. -/
set_option autoImplicit false

namespace DecisionMeta

open TextFile Backtrack PosixPath

/-- One more field on a line of its own: neither the title nor a comment. -/
structure IsField (line : Str) : Prop where
  oneLine : '\n' ∉ line
  other : ¬ "title:".toList <+: line
  noComment : ¬ "#".toList <+: line

def page (ls : List Str) (body : Str) : Str :=
  "---".toList ++ (ls.flatMap ('\n' :: ·) ++ ("\n---\n".toList ++ body))

def isFence (l : Str) : Bool := "---".toList.isPrefixOf l

theorem upTo_skip {w : Str} {c : Char} {w' : Str} (hw : w = c :: w') : ∀ (u rest : Str), c ∉ u →
    upTo w (u ++ rest) = (upTo w rest).map (u ++ ·) := by
  intro u
  induction u with
  | nil => intro rest _; simp
  | cons a u ih =>
      intro rest h
      rw [List.mem_cons, not_or] at h
      have hno : w.isPrefixOf (a :: (u ++ rest)) = false := by
        rw [hw]
        simp [List.isPrefixOf, h.1]
      rw [List.cons_append, upTo, hno, if_neg (by simp), ih rest h.2, Option.map_map]
      rfl

/-- The front matter ends before the first line that begins like a fence. -/
theorem parseFrontmatter_page (body : Str) : ∀ ls : List Str, (∀ l ∈ ls, '\n' ∉ l) →
    parseFrontmatter (page ls body) = (ls.takeWhile (!isFence ·)).flatMap ('\n' :: ·) := by
  have main : ∀ ls : List Str, (∀ l ∈ ls, '\n' ∉ l) →
      upTo "\n---".toList (ls.flatMap ('\n' :: ·) ++ ("\n---\n".toList ++ body)) =
        some ((ls.takeWhile (!isFence ·)).flatMap ('\n' :: ·)) := by
    intro ls
    induction ls with
    | nil => intro _; rfl
    | cons l ls ih =>
        intro h
        obtain ⟨hl, hls⟩ := List.forall_mem_cons.mp h
        obtain ⟨more, hmore⟩ : ∃ more, ls.flatMap ('\n' :: ·) ++ ("\n---\n".toList ++ body) =
            '\n' :: more := by
          cases ls with
          | nil => exact ⟨_, rfl⟩
          | cons l' ls => exact ⟨_, rfl⟩
        have hhere : "\n---".toList.isPrefixOf ('\n' :: (l ++ '\n' :: more)) = isFence l := by
          rw [Bool.eq_iff_iff, isFence, List.isPrefixOf_iff_prefix, List.isPrefixOf_iff_prefix]
          constructor
          · intro hpre
            exact Lines.prefix_append_cons (by decide) (List.cons_prefix_cons.mp hpre).2
          · intro hpre
            exact List.cons_prefix_cons.mpr ⟨rfl, hpre.trans (List.prefix_append ..)⟩
        have hrest := ih hls
        rw [hmore] at hrest
        rw [List.flatMap_cons, List.append_assoc, hmore, List.cons_append, upTo, hhere]
        cases hfence : isFence l with
        | true => simp [hfence]
        | false =>
            rw [if_neg (by simp), upTo_skip (w := "\n---".toList) rfl l _ hl, hrest]
            simp [hfence]
  intro ls h
  have hopen : "---".toList.isPrefixOf (page ls body) = true :=
    List.isPrefixOf_iff_prefix.mpr (List.prefix_append ..)
  have hdrop : (page ls body).drop 3 = ls.flatMap ('\n' :: ·) ++ ("\n---\n".toList ++ body) := rfl
  rw [parseFrontmatter, if_pos hopen, hdrop, main ls h]
  rfl

/-! ## The line of the title -/

theorem mem_run_ending (c d : Cursor Char) :
    d ∈ (concat [.star true (.set isSpace), eol '\n']).run c ↔
      ∃ u, (∀ a ∈ u, isSpace a = true) ∧ Advances c d u ∧ d.group = c.group ∧
        (d.after = [] ∨ d.after.head? = some '\n') := by
  simp only [run_concat_cons, run_concat_nil, List.mem_flatMap, List.mem_singleton, eol,
    mem_run_look, mem_run_star_set]
  constructor
  · intro h
    obtain ⟨_, ⟨u, hu, hadv, hg⟩, _, ⟨hend, rfl⟩, rfl⟩ := h
    exact ⟨u, hu, hadv, hg, by simpa using hend⟩
  · intro h
    obtain ⟨u, hu, hadv, hg, hend⟩ := h
    exact ⟨d, ⟨u, hu, hadv, hg⟩, d, ⟨by simpa using hend, rfl⟩, rfl⟩

/-- What stands on a line once the white space at both ends is cut. -/
structure Core (g : Str) : Prop where
  oneLine : '\n' ∉ g
  first : ∃ c ∈ g.head?, isSpace c = false
  last : ∃ c ∈ g.getLast?, isSpace c = false

theorem Core.exists_cons {g : Str} (h : Core g) : ∃ c g', g = c :: g' := by
  obtain ⟨c, hc, -⟩ := h.first
  cases g with
  | nil => cases hc
  | cons a g' => exact ⟨a, g', rfl⟩

theorem no_ending {x rest : Str} (hne : x ≠ []) (hline : '\n' ∉ x)
    (hlast : ∃ c ∈ x.getLast?, isSpace c = false) (before : Str) (g : Option Str) :
    (concat [.star true (.set isSpace), eol '\n']).run ⟨before, x ++ rest, g⟩ = [] := by
  rw [List.eq_nil_iff_forall_not_mem]
  intro d hd
  obtain ⟨u, hu, hadv, -, hend⟩ := (mem_run_ending _ d).mp hd
  have hsplit : x ++ rest = u ++ d.after := hadv.1
  obtain ⟨z, hz, hspace⟩ := hlast
  have hout : ¬ x <+: u := by
    intro hin
    have hzu : z ∈ u := hin.subset (List.mem_of_getLast? hz)
    rw [hu z hzu] at hspace
    cases hspace
  rcases List.append_eq_append_iff.mp hsplit with ⟨t, rfl, -⟩ | ⟨t, rfl, hafter⟩
  · exact hout (List.prefix_append ..)
  · -- the rest of the line begins with one of its own characters
    cases t with
    | nil => exact hout (by simp)
    | cons c t =>
        rw [hafter] at hend
        rcases hend with hend | hend
        · cases hend
        · obtain rfl := Option.some.inj hend
          exact hline (List.mem_append_right _ (List.mem_cons_self ..))

/-- The lazy group stops at the end of the core: nothing shorter is followed by white
space alone. -/
theorem head?_capture_core {b g v rest : Str} (hg : Core g) (hv : ∀ a ∈ v, isSpace a = true)
    (hrest : rest = [] ∨ rest.head? = some '\n') :
    ∃ d, ((concat [.capture (plus false (.set (· != '\n'))), .star true (.set isSpace), eol '\n']).run
      ⟨b, g ++ (v ++ rest), none⟩).head? = some d ∧ d.group = some g := by
  obtain ⟨c, g', rfl⟩ := hg.exists_cons
  have hline : c ≠ '\n' ∧ '\n' ∉ g' := by simpa [eq_comm] using hg.oneLine
  let start : Cursor Char := ⟨b, c :: (g' ++ (v ++ rest)), none⟩
  let next := fun d : Cursor Char =>
    (concat [.star true (.set isSpace), eol '\n']).run { d with group := some (start.consumedBy d) }
  have hcapture : (concat [.capture (plus false (.set (· != '\n'))), .star true (.set isSpace),
      eol '\n']).run start =
        ((Regex.star false (.set (· != '\n'))).run ⟨c :: b, g' ++ (v ++ rest), none⟩).flatMap next := by
    have hfirst : (c != '\n') = true := by simpa using hline.1
    simp only [run_concat_cons, plus, Regex.run, start, hfirst, if_true, List.flatMap_cons,
      List.flatMap_nil, List.append_nil, List.flatMap_map, next]
  have hend : next ⟨g'.reverse ++ c :: b, v ++ rest, none⟩ ≠ [] := by
    apply List.ne_nil_of_mem
    exact (mem_run_ending _ ⟨v.reverse ++ (g'.reverse ++ c :: b), rest,
      some (start.consumedBy ⟨g'.reverse ++ c :: b, v ++ rest, none⟩)⟩).mpr
      ⟨v, hv, ⟨rfl, rfl⟩, rfl, hrest⟩
  have hdots : ∀ a ∈ g', (a != '\n') = true := by
    intro a ha
    have hne : a ≠ '\n' := fun e => hline.2 (e ▸ ha)
    simpa using hne
  have hstuck : ∀ u x, g' = u ++ x → x ≠ [] → next ⟨u.reverse ++ c :: b, x ++ (v ++ rest), none⟩ = [] := by
    intro u x hsplit hx
    obtain ⟨z, hz, hzspace⟩ := hg.last
    rw [hsplit, ← List.cons_append, List.getLast?_append_of_ne_nil _ hx] at hz
    refine no_ending hx (fun hn => hline.2 ?_) ⟨z, hz, hzspace⟩ _ _
    rw [hsplit]
    exact List.mem_append_right _ hn
  have hlazy := head?_star_lazy g' (c :: b) (v ++ rest) none hdots hstuck hend
  obtain ⟨d, hd⟩ : ∃ d, (next ⟨g'.reverse ++ c :: b, v ++ rest, none⟩).head? = some d := by
    cases hn : next ⟨g'.reverse ++ c :: b, v ++ rest, none⟩ with
    | nil => exact absurd hn hend
    | cons d more => exact ⟨d, rfl⟩
  have hconsumed : start.consumedBy ⟨g'.reverse ++ c :: b, v ++ rest, none⟩ = c :: g' :=
    Advances.consumedBy ⟨rfl, by simp [start]⟩
  refine ⟨d, (congrArg List.head? hcapture).trans (hlazy.trans hd), ?_⟩
  obtain ⟨-, -, -, hgroup, -⟩ := (mem_run_ending _ d).mp (List.mem_of_mem_head? hd)
  rw [hgroup, hconsumed]

theorem first_titleRe {before w g v rest : Str} (hbefore : before = [] ∨ before.head? = some '\n')
    (hw : ∀ a ∈ w, isSpace a = true) (hg : Core g) (hv : ∀ a ∈ v, isSpace a = true)
    (hrest : rest = [] ∨ rest.head? = some '\n') :
    ∃ d, first titleRe before ("title:".toList ++ (w ++ (g ++ (v ++ rest)))) = some d ∧
      groupOf d = g := by
  obtain ⟨d, hhead, hgroup⟩ := head?_capture_core (b := w.reverse ++ ("title:".toList.reverse ++ before))
    hg hv hrest
  obtain ⟨c, g', rfl⟩ := hg.exists_cons
  obtain ⟨c', hc, hspace⟩ := hg.first
  obtain rfl := Option.some.inj hc
  have hgap : ((Regex.star true (.set isSpace)).run
      ⟨"title:".toList.reverse ++ before, w ++ (c :: g' ++ (v ++ rest)), none⟩).head? =
        some ⟨w.reverse ++ ("title:".toList.reverse ++ before), c :: g' ++ (v ++ rest), none⟩ := by
    rw [head?_star_greedy w _ _ none hw (by simpa using hspace)]
  have hbol : (bol '\n').run ⟨before, "title:".toList ++ (w ++ (c :: g' ++ (v ++ rest))), none⟩ =
      [⟨before, "title:".toList ++ (w ++ (c :: g' ++ (v ++ rest))), none⟩] := by
    rw [bol, Regex.run, if_pos]
    simpa using hbefore
  refine ⟨d, ?_, by rw [groupOf, hgroup]; rfl⟩
  rw [first, titleRe, run_concat_cons, hbol, List.flatMap_singleton, run_concat_cons, run_lit_append,
    List.flatMap_singleton, run_concat_cons, head?_flatMap_of_head hgap, hhead]
  intro hnil
  rw [hnil] at hhead
  cases hhead

theorem first_headingRe {before w g v rest : Str} (hbefore : before = [] ∨ before.head? = some '\n')
    (hne : w ≠ []) (hw : ∀ a ∈ w, isSpace a = true) (hg : Core g) (hv : ∀ a ∈ v, isSpace a = true)
    (hrest : rest = [] ∨ rest.head? = some '\n') :
    ∃ d, first headingRe before ("#".toList ++ (w ++ (g ++ (v ++ rest)))) = some d ∧ groupOf d = g := by
  obtain ⟨b, w', rfl⟩ := List.exists_cons_of_ne_nil hne
  obtain ⟨hb, hw'⟩ := List.forall_mem_cons.mp hw
  obtain ⟨d, hhead, hgroup⟩ := head?_capture_core
    (b := w'.reverse ++ (b :: ("#".toList.reverse ++ before))) hg hv hrest
  obtain ⟨c, g', rfl⟩ := hg.exists_cons
  obtain ⟨c', hc, hspace⟩ := hg.first
  obtain rfl := Option.some.inj hc
  have hstar : ((Regex.star true (.set isSpace)).run
      ⟨b :: ("#".toList.reverse ++ before), w' ++ (c :: g' ++ (v ++ rest)), none⟩).head? =
        some ⟨w'.reverse ++ (b :: ("#".toList.reverse ++ before)), c :: g' ++ (v ++ rest), none⟩ := by
    rw [head?_star_greedy w' _ _ none hw' (by simpa using hspace)]
  have hgap : ((plus true (.set isSpace)).run
      ⟨"#".toList.reverse ++ before, b :: w' ++ (c :: g' ++ (v ++ rest)), none⟩).head? =
        some ⟨w'.reverse ++ (b :: ("#".toList.reverse ++ before)), c :: g' ++ (v ++ rest), none⟩ := by
    have hset : (Regex.set isSpace).run
        ⟨"#".toList.reverse ++ before, b :: w' ++ (c :: g' ++ (v ++ rest)), none⟩ =
          [⟨b :: ("#".toList.reverse ++ before), w' ++ (c :: g' ++ (v ++ rest)), none⟩] := by
      simp [Regex.run, hb]
    rw [← hstar, plus, run_seq, hset, List.flatMap_singleton]
  have hbol : (bol '\n').run ⟨before, "#".toList ++ (b :: w' ++ (c :: g' ++ (v ++ rest))), none⟩ =
      [⟨before, "#".toList ++ (b :: w' ++ (c :: g' ++ (v ++ rest))), none⟩] := by
    rw [bol, Regex.run, if_pos]
    simpa using hbefore
  refine ⟨d, ?_, by rw [groupOf, hgroup]; rfl⟩
  rw [first, headingRe, run_concat_cons, hbol, List.flatMap_singleton, run_concat_cons, run_lit_append,
    List.flatMap_singleton, run_concat_cons, head?_flatMap_of_head hgap, hhead]
  intro hnil
  rw [hnil] at hhead
  cases hhead

/-! ## Stripping and unquoting -/

theorem head?_dropWhile_space (u : Str) : ∀ c ∈ (u.dropWhile isSpace).head?, isSpace c = false := by
  intro c hc
  have := List.head?_dropWhile_not isSpace u
  rw [Option.mem_def.mp hc] at this
  simpa using this

theorem core_strip {u : Str} (hline : '\n' ∉ u) (hu : ∃ c ∈ u, isSpace c = false) :
    Core (strip u) := by
  obtain ⟨w, v, hsplit, hw, hv⟩ := strip_split u
  obtain ⟨c, hc, hspace⟩ := hu
  have hne : strip u ≠ [] := by
    intro hnil
    rw [hsplit, hnil, List.nil_append] at hc
    rcases List.mem_append.mp hc with hc | hc
    · rw [hw c hc] at hspace; cases hspace
    · rw [hv c hc] at hspace; cases hspace
  have hlast : ∀ z ∈ (strip u).getLast?, isSpace z = false := by
    intro z hz
    rw [strip, List.getLast?_reverse] at hz
    exact head?_dropWhile_space _ z hz
  have hfirst : ∀ z ∈ (strip u).head?, isSpace z = false := by
    intro z hz
    -- the stripped text begins where the white space in front of it ends
    have hpre : strip u <+: u.dropWhile isSpace := by
      have := List.dropWhile_suffix isSpace (l := (u.dropWhile isSpace).reverse)
      have := List.reverse_prefix.mpr this
      rwa [List.reverse_reverse] at this
    obtain ⟨t, ht⟩ := hpre
    apply head?_dropWhile_space u z
    rw [← ht, List.head?_append_of_ne_nil _ hne]
    exact hz
  refine ⟨fun hn => hline ((strip_isInfix u).subset hn), ?_, ?_⟩
  · obtain ⟨a, rest, hcons⟩ := List.exists_cons_of_ne_nil hne
    exact ⟨a, by rw [hcons]; rfl, hfirst a (by rw [hcons]; rfl)⟩
  · exact ⟨_, List.getLast?_eq_some_getLast hne, hlast _ (List.getLast?_eq_some_getLast hne)⟩

theorem strip_core {g : Str} (h : Core g) : strip g = g := by
  obtain ⟨c, hc, hspace⟩ := h.first
  obtain ⟨z, hz, hzspace⟩ := h.last
  have hleft : g.dropWhile isSpace = g := by
    cases g with
    | nil => rfl
    | cons a rest =>
        obtain rfl := Option.some.inj hc
        rw [List.dropWhile_cons_of_neg (by simp [hspace])]
  have hright : g.reverse.dropWhile isSpace = g.reverse := by
    rw [← List.head?_reverse] at hz
    cases hrev : g.reverse with
    | nil => rfl
    | cons a rest =>
        rw [hrev] at hz
        obtain rfl := Option.some.inj hz
        rw [List.dropWhile_cons_of_neg (by simp [hzspace])]
  rw [strip, hleft, hright, List.reverse_reverse]

theorem strip_gap (n : Nat) (s : Str) : strip (List.replicate n ' ' ++ s) = strip s := by
  have hdrop : (List.replicate n ' ' ++ s).dropWhile isSpace = s.dropWhile isSpace := by
    induction n with
    | zero => rfl
    | succ n ih =>
        rw [List.replicate_succ, List.cons_append, List.dropWhile_cons_of_pos (by decide), ih]
  rw [strip, hdrop, strip]

theorem length_strip_lt {u : Str} (h : strip u ≠ u) : (strip u).length < u.length := by
  obtain ⟨w, v, hsplit, -, -⟩ := strip_split u
  have hlen := congrArg List.length hsplit
  rw [List.length_append, List.length_append] at hlen
  by_contra hge
  have hw : w = [] := List.length_eq_zero_iff.mp (by omega)
  have hv : v = [] := List.length_eq_zero_iff.mp (by omega)
  rw [hw, hv, List.nil_append, List.append_nil] at hsplit
  exact h hsplit.symm

theorem unquote_eq (s : Str) : unquote s = s ∨ ∃ q, (q = '"' ∨ q = '\'') ∧ s = q :: (unquote s ++ [q]) := by
  cases s with
  | nil => exact Or.inl rfl
  | cons q rest =>
      by_cases hq : rest ≠ [] ∧ (q = '"' ∨ q = '\'') ∧ rest.getLast? = some q
      · rw [unquote, if_pos hq]
        obtain ⟨-, hquote, hlast⟩ := hq
        obtain ⟨init, rfl⟩ := List.getLast?_eq_some_iff.mp hlast
        exact Or.inr ⟨q, hquote, by rw [List.dropLast_concat]⟩
      · rw [unquote, if_neg hq]
        exact Or.inl rfl

theorem length_unquote_le (s : Str) : (unquote s).length ≤ s.length := by
  rcases unquote_eq s with h | ⟨q, -, h⟩
  · rw [h]
  · have := congrArg List.length h
    simp only [List.length_cons, List.length_append, List.length_nil] at this
    omega

theorem unquote_quoted {q : Char} (hq : q = '"' ∨ q = '\'') (s : Str) :
    unquote (q :: s ++ [q]) = s := by
  rw [List.cons_append, unquote, if_pos ⟨by simp, hq, by simp⟩, List.dropLast_concat]

theorem unquote_bare {s : Str} (h : ∀ c ∈ s.head?, c ≠ '"' ∧ c ≠ '\'') : unquote s = s := by
  cases s with
  | nil => rfl
  | cons c rest =>
      obtain ⟨hd, hs⟩ := h c rfl
      rw [unquote, if_neg]
      intro hq
      rcases hq.2.1 with hq | hq
      · exact hd hq
      · exact hs hq

theorem count_hash_unquote_strip (u : Str) : (unquote (strip u)).count '#' = u.count '#' := by
  have hstrip : (strip u).count '#' = u.count '#' := by
    obtain ⟨w, v, hsplit, hw, hv⟩ := strip_split u
    have hnone : ∀ l : Str, (∀ a ∈ l, isSpace a = true) → l.count '#' = 0 := by
      intro l hl
      apply List.count_eq_zero_of_not_mem
      intro hmem
      exact absurd (hl _ hmem) (by decide)
    conv_rhs => rw [hsplit, List.count_append, List.count_append, hnone w hw, hnone v hv]
    omega
  rw [← hstrip]
  rcases unquote_eq (strip u) with h | ⟨q, hq, h⟩
  · rw [h]
  · have hne : q ≠ '#' := by
      rcases hq with rfl | rfl
      · decide
      · decide
    conv_rhs => rw [h, List.count_cons_of_ne hne, List.count_append]
    simp [List.count_cons_of_ne hne]

/-! ## The title of a page -/

theorem titleRe_heads : Heads titleRe '\n' "title:".toList := heads_of_bol _ _ _
theorem headingRe_heads : Heads headingRe '\n' "#".toList := heads_of_bol _ _ _

theorem search_fields {r : Regex Char} {w : Str} (h : Heads r '\n' w) (hw : '\n' ∉ w) (hne : w ≠ [])
    {ls : List Str} (hls : ∀ l ∈ ls, '\n' ∉ l ∧ ¬ w <+: l) (before : Str) :
    searchFrom r before (ls.flatMap ('\n' :: ·)) = none := by
  have hskip := h.skip_lines hw hne ls before [] hls (Or.inl rfl)
  rw [List.append_nil] at hskip
  rw [hskip]
  cases hfirst : first r ((ls.flatMap ('\n' :: ·)).reverse ++ before) [] with
  | none => exact hfirst
  | some d => exact absurd (List.prefix_nil.mp (h _ _ d hfirst).2) hne

theorem search_headingRe_page {ls : List Str} (hls : ∀ l ∈ ls, '\n' ∉ l ∧ ¬ "#".toList <+: l) :
    search headingRe (page ls []) = none := by
  have htext : page ls [] = "---".toList ++ (ls ++ ["---".toList, []]).flatMap ('\n' :: ·) := by
    simp [page]
  have hhead : ((ls ++ ["---".toList, []]).flatMap ('\n' :: ·)).head? = some '\n' := by
    cases ls with
    | nil => rfl
    | cons l ls => rfl
  rw [search, htext, headingRe_heads.skip_line (by decide) (by decide) (by decide) []
    (Or.inr hhead)]
  apply search_fields headingRe_heads (by decide) (by decide)
  intro l hl
  rcases List.mem_append.mp hl with hl | hl
  · exact hls l hl
  · simp only [List.mem_cons, List.not_mem_nil, or_false] at hl
    rcases hl with rfl | rfl
    · decide
    · decide

theorem search_title_skip {pre : List Str} (hpre : ∀ l ∈ pre, IsField l) (line : Str)
    (post : List Str) :
    search titleRe ((pre ++ line :: post).flatMap ('\n' :: ·)) =
      searchFrom titleRe ('\n' :: (pre.flatMap ('\n' :: ·)).reverse)
        (line ++ post.flatMap ('\n' :: ·)) := by
  have hskip := titleRe_heads.skip_lines (by decide) (by decide) pre []
    ('\n' :: (line ++ post.flatMap ('\n' :: ·))) (fun l hl => ⟨(hpre l hl).oneLine, (hpre l hl).other⟩)
    (Or.inr rfl)
  rw [search, List.flatMap_append, List.flatMap_cons, List.cons_append, hskip,
    titleRe_heads.skip_newline (by decide) (by decide), List.append_nil]

theorem parseTitle_page {pre post : List Str} {u : Str} (hpre : ∀ l ∈ pre, IsField l)
    (hfence : ∀ l ∈ pre, isFence l = false) (hpost : ∀ l ∈ post, IsField l) (hline : '\n' ∉ u)
    (hu : ∃ c ∈ u, isSpace c = false) (body fallback : Str) :
    parseTitle (page (pre ++ ("title:".toList ++ u) :: post) body) fallback = unquote (strip u) := by
  have hlines : ∀ l ∈ pre ++ ("title:".toList ++ u) :: post, '\n' ∉ l := by
    intro l hl
    rcases List.mem_append.mp hl with hl | hl
    · exact (hpre l hl).oneLine
    · rcases List.mem_cons.mp hl with rfl | hl
      · simp [hline]
      · exact (hpost l hl).oneLine
  have htake : (pre ++ ("title:".toList ++ u) :: post).takeWhile (!isFence ·) =
      pre ++ ("title:".toList ++ u) :: post.takeWhile (!isFence ·) := by
    rw [List.takeWhile_append_of_pos (by simpa using hfence), List.takeWhile_cons_of_pos]
    rfl
  obtain ⟨w, v, hsplit, hw, hv⟩ := strip_split u
  have hcore := core_strip hline hu
  have hrest : (post.takeWhile (!isFence ·)).flatMap ('\n' :: ·) = [] ∨
      ((post.takeWhile (!isFence ·)).flatMap ('\n' :: ·)).head? = some '\n' := by
    cases post.takeWhile (!isFence ·) with
    | nil => exact Or.inl rfl
    | cons l ls => exact Or.inr rfl
  have hbefore : ('\n' :: (pre.flatMap ('\n' :: ·)).reverse) = [] ∨
      ('\n' :: (pre.flatMap ('\n' :: ·)).reverse).head? = some '\n' := Or.inr rfl
  obtain ⟨d, hd, hgroup⟩ := first_titleRe hbefore hw hcore hv hrest
  have htext : "title:".toList ++ (w ++ (strip u ++ (v ++
      (post.takeWhile (!isFence ·)).flatMap ('\n' :: ·)))) =
        "title:".toList ++ u ++ (post.takeWhile (!isFence ·)).flatMap ('\n' :: ·) := by
    conv_rhs => rw [hsplit]
    simp only [List.append_assoc]
  rw [htext] at hd
  rw [parseTitle, parseFrontmatter_page body _ hlines, htake, search_title_skip hpre,
    searchFrom_first hd]
  simp only [hgroup, strip_core hcore]

theorem parseTitle_heading {w g v rest : Str} (hne : w ≠ []) (hw : ∀ a ∈ w, isSpace a = true) (hg : Core g)
    (hv : ∀ a ∈ v, isSpace a = true) (hrest : rest = [] ∨ rest.head? = some '\n') (fallback : Str) :
    parseTitle ("#".toList ++ (w ++ (g ++ (v ++ rest)))) fallback = g := by
  obtain ⟨d, hd, hgroup⟩ := first_headingRe (Or.inl rfl) hne hw hg hv hrest
  have hfront : parseFrontmatter ("#".toList ++ (w ++ (g ++ (v ++ rest)))) = [] := rfl
  have hnone : search titleRe [] = none := by decide
  rw [parseTitle, hfront, hnone]
  simp only [search, searchFrom_first hd, hgroup, strip_core hg]

theorem group_of_titleRe {before q : Str} {d : Cursor Char} (h : first titleRe before q = some d) :
    ∃ rest, q = "title:".toList ++ rest ∧ groupOf d <:+: rest := by
  have hmem := first_mem h
  simp only [titleRe, run_concat_cons, run_concat_nil, List.mem_flatMap, List.mem_singleton, bol, eol,
    mem_run_look, mem_run_lit, mem_run_star_set, mem_run_capture, mem_run_plus_set] at hmem
  obtain ⟨_, ⟨-, rfl⟩, e, ⟨hopen, -⟩, e₁, ⟨w, -, hw, -⟩, _, ⟨e₂, ⟨g, -, -, hg, -⟩, rfl⟩, e₃,
    ⟨v, -, -, hgroup⟩, _, ⟨-, rfl⟩, rfl⟩ := hmem
  refine ⟨e.after, hopen.1, ?_⟩
  rw [groupOf, hgroup, Option.getD_some, hg.consumedBy]
  exact ⟨w, e₂.after, by rw [hw.1, hg.1, List.append_assoc]⟩

theorem parseTitle_blank {pre : List Str} {u : Str} (hpre : ∀ l ∈ pre, IsField l)
    (hfence : ∀ l ∈ pre, isFence l = false) (hline : '\n' ∉ u) (hu : ∀ c ∈ u, isSpace c = true)
    (fallback : Str) :
    parseTitle (page (pre ++ ["title:".toList ++ u]) []) fallback = [] ∨
      parseTitle (page (pre ++ ["title:".toList ++ u]) []) fallback = fallback := by
  have hlines : ∀ l ∈ pre ++ ["title:".toList ++ u], '\n' ∉ l ∧ ¬ "#".toList <+: l := by
    intro l hl
    rcases List.mem_append.mp hl with hl | hl
    · exact ⟨(hpre l hl).oneLine, (hpre l hl).noComment⟩
    · rw [List.mem_singleton.mp hl]
      exact ⟨by simp [hline], by simp⟩
  have htake : (pre ++ ["title:".toList ++ u]).takeWhile (!isFence ·) = pre ++ ["title:".toList ++ u] := by
    rw [List.takeWhile_append_of_pos (by simpa using hfence), List.takeWhile_cons_of_pos]
    · rfl
    · rfl
  rw [parseTitle, parseFrontmatter_page [] _ fun l hl => (hlines l hl).1, htake, search_title_skip hpre]
  rw [search_headingRe_page hlines]
  cases hsearch : searchFrom titleRe ('\n' :: (pre.flatMap ('\n' :: ·)).reverse)
      ("title:".toList ++ u ++ List.flatMap ('\n' :: ·) []) with
  | none => exact Or.inr rfl
  | some d =>
      left
      obtain ⟨front, q, hsplit, hd⟩ := searchFrom_sound _ _ hsearch
      obtain ⟨rest, rfl, hgroup⟩ := group_of_titleRe hd
      -- whatever the pattern begins at, its group lies behind the opening
      have hsuffix : rest <:+ u := by
        have hwhole : "title:".toList ++ u = front ++ "title:".toList ++ rest := by
          rw [List.append_assoc, ← hsplit]
          simp
        have hlen := congrArg List.length hwhole
        simp only [List.length_append] at hlen
        have hrest : rest <:+ "title:".toList ++ u := ⟨front ++ "title:".toList, hwhole.symm⟩
        exact List.suffix_of_suffix_length_le hrest (List.suffix_append ..) (by omega)
      have hspace : ∀ c ∈ groupOf d, isSpace c = true := fun c hc =>
        hu c (hsuffix.subset (hgroup.subset hc))
      have hstrip : strip (groupOf d) = [] := by
        rw [strip, List.dropWhile_eq_nil_iff.mpr hspace]
        rfl
      simp [hstrip, unquote]

theorem parseTitle_fenced {pre : List Str} {line : Str} (hpre : ∀ l ∈ pre, IsField l)
    (hfence : ∃ l ∈ pre, isFence l = true) (hline : '\n' ∉ line ∧ ¬ "#".toList <+: line)
    (fallback : Str) : parseTitle (page (pre ++ [line]) []) fallback = fallback := by
  have hlines : ∀ l ∈ pre ++ [line], '\n' ∉ l ∧ ¬ "#".toList <+: l := by
    intro l hl
    rcases List.mem_append.mp hl with hl | hl
    · exact ⟨(hpre l hl).oneLine, (hpre l hl).noComment⟩
    · rwa [List.mem_singleton.mp hl]
  have htake : (pre ++ [line]).takeWhile (!isFence ·) = pre.takeWhile (!isFence ·) := by
    obtain ⟨l, hl, hfence⟩ := hfence
    rw [List.takeWhile_append, if_neg]
    intro hall
    have hself := List.takeWhile_eq_self_iff.mp
      ((List.takeWhile_prefix (!isFence ·)).eq_of_length hall) l hl
    simp [hfence] at hself
  have hnone : search titleRe ((pre.takeWhile (!isFence ·)).flatMap ('\n' :: ·)) = none := by
    apply search_fields titleRe_heads (by decide) (by decide)
    intro l hl
    have hmem := (List.takeWhile_prefix (!isFence ·)).subset hl
    exact ⟨(hpre l hmem).oneLine, (hpre l hmem).other⟩
  rw [parseTitle, parseFrontmatter_page [] _ fun l hl => (hlines l hl).1, htake, hnone,
    search_headingRe_page hlines]

end DecisionMeta
