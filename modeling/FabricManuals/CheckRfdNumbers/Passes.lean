import FabricManuals.CheckRfdNumbers.Patterns
import FabricManuals.Lib.Attempts

/-! # What each pass of the gate establishes

For every pass, the condition under which it reports nothing and does not raise.
`check_eq_nil_iff` puts them together: the verdict as a property of the tree. -/
set_option autoImplicit false

namespace CheckRfdNumbers

open TextFile Backtrack FileTree OrderedDict PosixPath Attempts

/-! ## Directory names and headers -/

theorem mem_candidates (t : Tree) (d : Name) :
    d ∈ candidates t ↔ t.isdir [rfd, d] = true ∧ (first candidateRe [] d).isSome := by
  rw [candidates, sorted, List.mem_insertionSort, List.mem_filter, Bool.and_eq_true]
  constructor
  · exact fun h => h.2
  · intro h
    exact ⟨(mem_listdir t [rfd] d).mpr ⟨.dir, (isdir_iff t (by simp)).mp h.1⟩, h⟩

theorem nodup_candidates (t : Tree) : (candidates t).Nodup := by
  rw [candidates, sorted, (List.perm_insertionSort _ _).nodup_iff]
  exact (nodup_listdir t [rfd]).filter _

def numOf (d : Name) : Str := ((first DIR_RE [] d).map groupOf).getD []

/-- A directory the first loop has nothing to say about. -/
structure Clean (t : Tree) (d : Name) : Prop where
  named : (first DIR_RE [] d).isSome
  org : (numOf d).take 1 = [ORG]
  present : t.exists (indexOf d) = true
  header : ∃ body, readIgnore t (indexOf d) = .ok body ∧
    (search FM_RE body).map groupOf = some (numOf d) ∧
    (search TITLE_RE body).map groupOf = some (numOf d)

theorem compareField_eq_nil (re : Regex Char) (missing : Problem) (differs : Str → Problem)
    (num body : Str) :
    compareField re missing differs num body = [] ↔ (search re body).map groupOf = some num := by
  unfold compareField
  cases search re body with
  | none => simp
  | some m => simp

theorem checkDir_of_clean {t : Tree} {st : Numbering} {d : Name} (hst : st.problems = [])
    (hclean : Clean t d) (hnew : numOf d ∉ st.seen) :
    checkDir t st d = .ok ⟨[], st.seen.set (numOf d) d⟩ := by
  obtain ⟨m, hm⟩ := Option.isSome_iff_exists.mp hclean.named
  have hnum : groupOf m = numOf d := by simp [numOf, hm]
  obtain ⟨body, hread, hfm, hti⟩ := hclean.header
  have hnone : st.seen.get? (numOf d) = none := (get?_eq_none_iff _ _).mpr hnew
  have hf := (compareField_eq_nil FM_RE (.noField d)
    (fun found => .fieldDiffers d found (numOf d)) _ _).mpr hfm
  have ht := (compareField_eq_nil TITLE_RE (.noTitle d)
    (fun found => .titleDiffers d found (numOf d)) _ _).mpr hti
  simp [checkDir, hm, hnum, hclean.present, hread, hst, hclean.org, hnone, hf, ht]

theorem clean_of_checkDir {t : Tree} {st st' : Numbering} {d : Name} (h : checkDir t st d = .ok st')
    (hnil : st'.problems = []) : st.problems = [] ∧ Clean t d ∧ numOf d ∉ st.seen := by
  unfold checkDir at h
  cases hm : first DIR_RE [] d with
  | none =>
      rw [hm] at h
      rw [← Except.ok.inj h] at hnil
      simp at hnil
  | some m =>
      have hnum : groupOf m = numOf d := by simp [numOf, hm]
      simp only [hm, hnum] at h
      by_cases hex : t.exists (indexOf d) = false
      · rw [if_pos hex] at h
        rw [← Except.ok.inj h] at hnil
        simp at hnil
      rw [if_neg hex] at h
      cases hbody : readIgnore t (indexOf d) with
      | error e =>
          rw [hbody] at h
          cases h
      | ok body =>
          rw [hbody] at h
          rw [← Except.ok.inj h] at hnil
          simp only [List.append_eq_nil_iff, compareField_eq_nil] at hnil
          obtain ⟨⟨⟨⟨hst, horg⟩, hcol⟩, hfm⟩, hti⟩ := hnil
          have horg' : (numOf d).take 1 = [ORG] := by
            by_contra hne
            rw [if_pos hne] at horg
            cases horg
          have hnew : numOf d ∉ st.seen := by
            intro hmem
            obtain ⟨by', hby⟩ := (mem_iff_get? ..).mp hmem
            rw [hby] at hcol
            cases hcol
          exact ⟨hst, ⟨by rw [hm]; rfl, horg', by simpa using hex, body, hbody, hfm, hti⟩, hnew⟩

/-- One round of the loop stays silent exactly on a clean directory whose number is new. -/
theorem checkDir_silent_iff (t : Tree) (st st' : Numbering) (d : Name) :
    (checkDir t st d = .ok st' ∧ st'.problems = []) ↔
      st.problems = [] ∧ Clean t d ∧ numOf d ∉ st.seen ∧
        st' = ⟨[], st.seen.set (numOf d) d⟩ := by
  constructor
  · intro h
    obtain ⟨h, hnil⟩ := h
    obtain ⟨hst, hclean, hnew⟩ := clean_of_checkDir h hnil
    rw [checkDir_of_clean hst hclean hnew] at h
    exact ⟨hst, hclean, hnew, (Except.ok.inj h).symm⟩
  · intro h
    obtain ⟨hst, hclean, hnew, rfl⟩ := h
    exact ⟨checkDir_of_clean hst hclean hnew, rfl⟩

def seenOf (dirs : List Name) (seen : Dict Str Name) : Dict Str Name :=
  dirs.foldl (fun s d => s.set (numOf d) d) seen

theorem mem_seenOf : ∀ (dirs : List Name) (seen : Dict Str Name) (num : Str),
    num ∈ seenOf dirs seen ↔ (∃ d ∈ dirs, numOf d = num) ∨ num ∈ seen := by
  intro dirs
  induction dirs with
  | nil => intro seen num; simp [seenOf]
  | cons d rest ih =>
      intro seen num
      have hstep : seenOf (d :: rest) seen = seenOf rest (seen.set (numOf d) d) := rfl
      rw [hstep, ih, mem_set]
      constructor
      · intro h
        rcases h with ⟨e, he, rfl⟩ | rfl | h
        · exact Or.inl ⟨e, List.mem_cons_of_mem _ he, rfl⟩
        · exact Or.inl ⟨d, List.mem_cons_self .., rfl⟩
        · exact Or.inr h
      · intro h
        rcases h with ⟨e, he, rfl⟩ | h
        · rcases List.mem_cons.mp he with rfl | he
          · exact Or.inr (Or.inl rfl)
          · exact Or.inl ⟨e, he, rfl⟩
        · exact Or.inr (Or.inr h)

/-- The whole loop: every directory clean, and no number met twice. -/
theorem foldlM_checkDir_silent_iff (t : Tree) : ∀ (dirs : List Name) (st st' : Numbering),
    (dirs.foldlM (checkDir t) st = .ok st' ∧ st'.problems = []) ↔
      st.problems = [] ∧ (∀ d ∈ dirs, Clean t d) ∧ (dirs.map numOf).Nodup ∧
        (∀ d ∈ dirs, numOf d ∉ st.seen) ∧ st' = ⟨[], seenOf dirs st.seen⟩ := by
  intro dirs
  induction dirs with
  | nil =>
      intro st st'
      simp only [List.foldlM_nil, pure, Except.pure, Except.ok.injEq, seenOf]
      constructor
      · intro h
        obtain ⟨rfl, h⟩ := h
        exact ⟨h, by simp, by simp, by simp, by cases st; simp_all⟩
      · intro h
        obtain ⟨h, -, -, -, rfl⟩ := h
        exact ⟨by cases st; simp_all, rfl⟩
  | cons d rest ih =>
      intro st st'
      rw [List.foldlM_cons, bind_eq_ok]
      constructor
      · intro h
        obtain ⟨⟨st₁, hstep, hrest⟩, hnil⟩ := h
        obtain ⟨h₁, hclean, hnodup, hnew, rfl⟩ := (ih st₁ st').mp ⟨hrest, hnil⟩
        obtain ⟨hst, hd, hfresh, rfl⟩ := (checkDir_silent_iff t st st₁ d).mp ⟨hstep, h₁⟩
        refine ⟨hst, List.forall_mem_cons.mpr ⟨hd, hclean⟩, ?_, ?_, rfl⟩
        · rw [List.map_cons, List.nodup_cons]
          refine ⟨?_, hnodup⟩
          intro hmem
          obtain ⟨e, he, heq⟩ := List.mem_map.mp hmem
          exact hnew e he ((mem_set ..).mpr (Or.inl heq))
        · refine List.forall_mem_cons.mpr ⟨hfresh, fun e he hmem => ?_⟩
          exact hnew e he ((mem_set ..).mpr (Or.inr hmem))
      · intro h
        obtain ⟨hst, hclean, hnodup, hnew, rfl⟩ := h
        obtain ⟨hd, hclean⟩ := List.forall_mem_cons.mp hclean
        obtain ⟨hfresh, hnew⟩ := List.forall_mem_cons.mp hnew
        rw [List.map_cons, List.nodup_cons] at hnodup
        obtain ⟨hstep, hnil⟩ := (checkDir_silent_iff t st ⟨[], st.seen.set (numOf d) d⟩ d).mpr
          ⟨hst, hd, hfresh, rfl⟩
        refine ⟨⟨_, hstep, ((ih _ _).mpr ⟨hnil, hclean, hnodup.2, ?_, rfl⟩).1⟩, rfl⟩
        intro e he hmem
        rcases (mem_set ..).mp hmem with heq | hmem
        · exact hnodup.1 (List.mem_map.mpr ⟨e, he, heq⟩)
        · exact hnew e he hmem

/-! ## The walks -/

theorem find?_file (t : Tree) {cur : Path} {f : Name} {e : Entry} :
    t.find? (cur ++ [f]) = some e ↔ (cur ++ [f], e) ∈ t.entries :=
  find?_eq_some_iff t (by simp) e

theorem citeFile_eq_nil_iff (U : Unicode) (c : Checkout) (cur : Path) (f : Name) :
    citeFile U c cur f = [] ↔
      ∀ bytes, (cur ++ [f], Entry.file bytes) ∈ c.tree.entries → f ≠ aliasesMd →
        c.root ++ (cur ++ [f]) ≠ c.me → ∀ num, ¬ Cites U (decodeIgnore bytes) num := by
  unfold citeFile
  by_cases hskip : f = aliasesMd ∨ c.root ++ (cur ++ [f]) = c.me
  · rw [if_pos hskip]
    refine ⟨fun _ bytes _ hne hme => ?_, fun _ => rfl⟩
    exact absurd hskip (not_or.mpr ⟨hne, hme⟩)
  · rw [if_neg hskip]
    rw [not_or] at hskip
    simp only [← find?_file, ← read_eq_ok_iff]
    cases hread : readIgnore c.tree (cur ++ [f]) with
    | error e =>
        refine ⟨fun _ bytes hbytes => ?_, fun _ => rfl⟩
        rw [(readIgnore_eq_ok _ _ _).mpr ⟨bytes, hbytes, rfl⟩] at hread
        cases hread
    | ok body =>
        obtain ⟨bytes, hbytes, rfl⟩ := (readIgnore_eq_ok _ _ _).mp hread
        rw [List.map_eq_nil_iff, List.eq_nil_iff_forall_not_mem]
        simp only [mem_findall_oldCiteRe]
        constructor
        · intro h bytes' hbytes' _ _
          obtain rfl := Except.ok.inj (hbytes.symm.trans hbytes')
          exact h
        · exact fun h => h bytes hbytes hskip.1 hskip.2

theorem citePass_eq_nil_iff (U : Unicode) (c : Checkout) :
    citePass U c = [] ↔
      ∀ cur f bytes, (cur ++ [f], Entry.file bytes) ∈ c.tree.entries →
        skipped (c.root ++ cur) = false → f ≠ aliasesMd → c.root ++ (cur ++ [f]) ≠ c.me →
          ∀ num, ¬ Cites U (decodeIgnore bytes) num := by
  simp only [citePass, List.flatMap_eq_nil_iff]
  constructor
  · intro h cur f bytes hmem hskip
    obtain ⟨files, hcur, hf⟩ := (mem_walk c.tree [] cur f).mpr
      ⟨List.nil_prefix, by simp [Tree.isdir], .file bytes, hmem, by simp⟩
    have hnil := h (cur, files) hcur
    simp only [hskip, Bool.false_eq_true, if_false, List.flatMap_eq_nil_iff] at hnil
    exact (citeFile_eq_nil_iff U c cur f).mp (hnil f hf) bytes hmem
  · rintro h ⟨cur, files⟩ hcur
    by_cases hskip : skipped (c.root ++ cur) = true
    · simp [hskip]
    · simp only [hskip, Bool.false_eq_true, if_false, List.flatMap_eq_nil_iff]
      intro f hf
      refine (citeFile_eq_nil_iff U c cur f).mpr fun bytes hmem => ?_
      exact h cur f bytes hmem (by simpa using hskip)

theorem collect_eq_nil_iff {α : Type} (f : α → Except PyError (List Problem)) : ∀ l : List α,
    collect f l = .ok [] ↔ ∀ a ∈ l, f a = .ok [] := by
  intro l
  induction l with
  | nil => simp [collect]
  | cons a rest ih =>
      simp only [collect, bind_eq_ok, pure, Except.pure, Except.ok.injEq, List.append_eq_nil_iff]
      constructor
      · intro h
        obtain ⟨_, ha, _, hrest, rfl, rfl⟩ := h
        exact List.forall_mem_cons.mpr ⟨ha, ih.mp hrest⟩
      · intro h
        obtain ⟨ha, hrest⟩ := List.forall_mem_cons.mp h
        exact ⟨[], ha, [], ih.mpr hrest, rfl, rfl⟩

theorem linkFile_eq_nil_iff (c : Checkout) (cur : Path) (f : Name) :
    linkFile c cur f = .ok [] ↔ (".md".toList <:+ f →
      ∃ bytes, c.tree.read (cur ++ [f]) = .ok bytes ∧
        ∀ name ∈ findall linkRe (decodeIgnore bytes), c.tree.isdir [rfd, name] = true) := by
  unfold linkFile
  by_cases hmd : ".md".toList <:+ f
  · rw [if_pos (List.isSuffixOf_iff_suffix.mpr hmd)]
    simp only [hmd, true_imp_iff]
    cases hread : readIgnore c.tree (cur ++ [f]) with
    | error e =>
        constructor
        · intro h; cases h
        · intro h
          obtain ⟨bytes, hbytes, -⟩ := h
          have := (readIgnore_eq_ok _ _ _).mpr ⟨bytes, hbytes, rfl⟩
          rw [hread] at this
          cases this
    | ok body =>
        obtain ⟨bytes, hbytes, rfl⟩ := (readIgnore_eq_ok _ _ _).mp hread
        simp only [hbytes, Except.ok.injEq, List.map_eq_nil_iff, List.filter_eq_nil_iff,
          Bool.not_eq_true', Bool.not_eq_false, exists_eq_left']
  · rw [if_neg fun h => hmd (List.isSuffixOf_iff_suffix.mp h)]
    exact ⟨fun _ h => absurd h hmd, fun _ => rfl⟩

theorem linkPass_eq_nil_iff (c : Checkout) (hrfd : c.tree.isdir [rfd] = true) :
    linkPass c = .ok [] ↔
      ∀ cur f e, [rfd] <+: cur → (cur ++ [f], e) ∈ c.tree.entries → e ≠ .dir → ".md".toList <:+ f →
        ∃ bytes, c.tree.read (cur ++ [f]) = .ok bytes ∧
          ∀ name ∈ findall linkRe (decodeIgnore bytes), c.tree.isdir [rfd, name] = true := by
  rw [linkPass, collect_eq_nil_iff]
  simp only [List.mem_flatMap, List.mem_map]
  constructor
  · intro h cur f e hpre hmem hne
    obtain ⟨files, hcur, hf⟩ := (mem_walk c.tree [rfd] cur f).mpr ⟨hpre, hrfd, e, hmem, hne⟩
    exact (linkFile_eq_nil_iff c cur f).mp (h (cur, f) ⟨(cur, files), hcur, f, hf, rfl⟩)
  · rintro h _ ⟨⟨cur, files⟩, hcur, f, hf, rfl⟩
    obtain ⟨hpre, -, e, hmem, hne⟩ := (mem_walk c.tree [rfd] cur f).mp ⟨files, hcur, hf⟩
    exact (linkFile_eq_nil_iff c cur f).mpr (h cur f e hpre hmem hne)

theorem aliasPass_eq_nil_iff (t : Tree) (seen : Dict Str Name) :
    aliasPass t seen = .ok [] ↔ t.exists [aliasesMd] = true ∧
      ∃ text, readStrict t [aliasesMd] = .ok text ∧ ∀ num ∈ seen, num ∈ findall aliasRe text := by
  unfold aliasPass
  by_cases hex : t.exists [aliasesMd] = false
  · simp [hex]
  · have hex' : t.exists [aliasesMd] = true := by simpa using hex
    simp only [hex', Bool.true_eq_false, if_false, bind_eq_ok, pure, Except.pure, Except.ok.injEq,
      List.map_eq_nil_iff, List.filter_eq_nil_iff, sorted, List.mem_insertionSort,
      Bool.not_eq_true', Bool.not_eq_false, List.contains_iff_mem, true_and]
    rfl

theorem check_eq_nil_iff (U : Unicode) (c : Checkout) :
    check U c = .ok [] ↔ c.tree.isdir [rfd] = true ∧ candidates c.tree ≠ [] ∧
      (∀ d ∈ candidates c.tree, Clean c.tree d) ∧ ((candidates c.tree).map numOf).Nodup ∧
      citePass U c = [] ∧ linkPass c = .ok [] ∧
      aliasPass c.tree (seenOf (candidates c.tree) .empty) = .ok [] := by
  unfold check
  by_cases hrfd : c.tree.isdir [rfd] = false
  · simp [hrfd]
  · have hrfd' : c.tree.isdir [rfd] = true := by simpa using hrfd
    simp only [hrfd', Bool.true_eq_false, if_false, true_and, bind_eq_ok, pure, Except.pure,
      Except.ok.injEq, List.append_eq_nil_iff]
    constructor
    · intro h
      obtain ⟨st, hfold, _, hlinks, _, hrows, ⟨⟨hproblems, hcite⟩, rfl⟩, rfl⟩ := h
      obtain ⟨hstart, hclean, hnodup, -, rfl⟩ := (foldlM_checkDir_silent_iff ..).mp ⟨hfold, hproblems⟩
      refine ⟨fun hnil => ?_, hclean, hnodup, hcite, hlinks, hrows⟩
      rw [if_pos hnil] at hstart
      cases hstart
    · intro h
      obtain ⟨hne, hclean, hnodup, hcite, hlinks, hrows⟩ := h
      rw [if_neg hne]
      obtain ⟨hfold, -⟩ := (foldlM_checkDir_silent_iff c.tree (candidates c.tree) ⟨[], .empty⟩ _).mpr
        ⟨rfl, hclean, hnodup, by simp, rfl⟩
      exact ⟨_, hfold, [], hlinks, [], hrows, ⟨⟨rfl, hcite⟩, rfl⟩, rfl⟩

end CheckRfdNumbers
