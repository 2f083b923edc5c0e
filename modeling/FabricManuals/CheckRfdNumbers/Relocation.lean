import FabricManuals.CheckRfdNumbers.Citations

/-! # The gate at another place

One tree in two places, listed in any order.  Every pass but the citation walk looks
at paths relative to the root; that walk also looks at the components of the root
itself, so the two verdicts can part. -/
set_option autoImplicit false

namespace CheckRfdNumbers

open TextFile Backtrack FileTree OrderedDict PosixPath Attempts

/-- The same files with the same contents at two roots, the script at the same place. -/
structure Relocated (c c' : Checkout) : Prop where
  tree : c.tree.entries.Perm c'.tree.entries
  script : ∃ place, c.me = c.root ++ place ∧ c'.me = c'.root ++ place

def movePath (root root' p : Path) : Path := root' ++ p.drop root.length

def Problem.relocate (root root' : Path) : Problem → Problem
  | .oldCitation p num => .oldCitation (movePath root root' p) num
  | .brokenLink p target => .brokenLink (movePath root root' p) target
  | problem => problem

/-- Both runs raise, or both list the same problems up to their order and the root. -/
def SameVerdict (c c' : Checkout) (r r' : Except PyError (List Problem)) : Prop :=
  match r, r' with
  | .ok ps, .ok ps' => (ps.map (Problem.relocate c.root c'.root)).Perm ps'
  | .error _, .error _ => True
  | _, _ => False

def Unreadable (t : Tree) (p : Path) : Prop := ∀ bytes, t.find? p ≠ some (.file bytes)

/-- A file the gate opens without a guard does not open, or `ALIASES.md` does not decode. -/
def Raises (t : Tree) : Prop :=
  (∃ d, t.isdir [rfd, d] = true ∧ (first DIR_RE [] d).isSome ∧ t.exists (indexOf d) = true ∧
    Unreadable t (indexOf d)) ∨
  (∃ cur f e, [rfd] <+: cur ∧ (cur ++ [f], e) ∈ t.entries ∧ e ≠ .dir ∧ ".md".toList <:+ f ∧
    Unreadable t (cur ++ [f])) ∨
  (t.exists [aliasesMd] = true ∧ ∀ bytes text, t.find? [aliasesMd] = some (.file bytes) →
    decode bytes ≠ some text)

/-- No file that the citation walk would open at a root of its own cites an old number. -/
def Uncited (U : Unicode) (c : Checkout) : Prop :=
  ∀ cur f bytes, (cur ++ [f], Entry.file bytes) ∈ c.tree.entries → skipped cur = false →
    f ≠ aliasesMd → c.root ++ (cur ++ [f]) ≠ c.me → ∀ num, ¬ Cites U (decodeIgnore bytes) num

/-! ## What raises -/

def Fails {α : Type} (r : Except PyError α) : Prop := ∃ e, r = .error e

theorem not_fails_ok {α : Type} (a : α) : ¬ Fails (.ok a : Except PyError α) := by
  intro h
  obtain ⟨e, he⟩ := h
  cases he

theorem fails_bind {α β : Type} {x : Except PyError α} {f : α → Except PyError β} :
    Fails (x >>= f) ↔ Fails x ∨ ∃ a, x = .ok a ∧ Fails (f a) := by
  cases x with
  | error e => simp [Fails, bind, Except.bind]
  | ok a => simp [Fails, bind, Except.bind]

theorem readIgnore_fails (t : Tree) (p : Path) : Fails (readIgnore t p) ↔ Unreadable t p := by
  constructor
  · intro h bytes hfind
    rw [(readIgnore_eq_ok t p _).mpr ⟨bytes, (read_eq_ok_iff t p bytes).mpr hfind, rfl⟩] at h
    exact not_fails_ok _ h
  · intro h
    cases hread : readIgnore t p with
    | error e => exact ⟨e, rfl⟩
    | ok body =>
        obtain ⟨bytes, hbytes, -⟩ := (readIgnore_eq_ok t p body).mp hread
        exact absurd ((read_eq_ok_iff t p bytes).mp hbytes) (h bytes)

theorem checkDir_fails (t : Tree) (st : Numbering) (d : Name) :
    Fails (checkDir t st d) ↔
      (first DIR_RE [] d).isSome ∧ t.exists (indexOf d) = true ∧ Unreadable t (indexOf d) := by
  rw [← readIgnore_fails]
  unfold checkDir
  cases first DIR_RE [] d with
  | none => simp [not_fails_ok]
  | some m =>
      by_cases hex : t.exists (indexOf d) = false
      · simp [hex, not_fails_ok]
      · have hex' : t.exists (indexOf d) = true := by simpa using hex
        cases readIgnore t (indexOf d) with
        | error e => simp [hex', Fails]
        | ok body => simp [hex', not_fails_ok]

theorem foldlM_checkDir_fails (t : Tree) : ∀ (dirs : List Name) (st : Numbering),
    Fails (dirs.foldlM (checkDir t) st) ↔
      ∃ d ∈ dirs, (first DIR_RE [] d).isSome ∧ t.exists (indexOf d) = true ∧
        Unreadable t (indexOf d) := by
  intro dirs
  induction dirs with
  | nil => intro st; simp [pure, Except.pure, not_fails_ok]
  | cons d rest ih =>
      intro st
      rw [List.foldlM_cons, fails_bind, checkDir_fails]
      simp only [ih, List.mem_cons, exists_eq_or_imp]
      constructor
      · intro h
        exact h.imp id fun ⟨_, _, hrest⟩ => hrest
      · intro h
        by_cases hd : (first DIR_RE [] d).isSome ∧ t.exists (indexOf d) = true ∧
            Unreadable t (indexOf d)
        · exact Or.inl hd
        · rw [← checkDir_fails t st] at hd
          cases hstep : checkDir t st d with
          | error e => exact absurd ⟨e, hstep⟩ hd
          | ok st' => exact Or.inr ⟨st', rfl, h.resolve_left fun hd' =>
              hd ((checkDir_fails t st d).mpr hd')⟩

theorem collect_fails {α : Type} (f : α → Except PyError (List Problem)) : ∀ l : List α,
    Fails (collect f l) ↔ ∃ a ∈ l, Fails (f a) := by
  intro l
  induction l with
  | nil => simp [collect, not_fails_ok]
  | cons a rest ih =>
      simp only [collect, fails_bind, ih, List.mem_cons, exists_eq_or_imp]
      cases hf : f a with
      | error e => simp [Fails]
      | ok here => simp [not_fails_ok, pure, Except.pure]

theorem linkFile_fails (c : Checkout) (cur : Path) (f : Name) :
    Fails (linkFile c cur f) ↔ ".md".toList <:+ f ∧ Unreadable c.tree (cur ++ [f]) := by
  rw [← readIgnore_fails, ← List.isSuffixOf_iff_suffix]
  unfold linkFile
  by_cases hmd : ".md".toList.isSuffixOf f = true
  · rw [if_pos hmd]
    simp only [hmd, true_and]
    cases readIgnore c.tree (cur ++ [f]) with
    | error e => simp [Fails]
    | ok body => simp [not_fails_ok]
  · rw [if_neg hmd]
    exact ⟨fun h => absurd h (not_fails_ok _), fun h => absurd h.1 hmd⟩

theorem linkPass_fails (c : Checkout) (hrfd : c.tree.isdir [rfd] = true) :
    Fails (linkPass c) ↔ ∃ cur f e, [rfd] <+: cur ∧ (cur ++ [f], e) ∈ c.tree.entries ∧ e ≠ .dir ∧
      ".md".toList <:+ f ∧ Unreadable c.tree (cur ++ [f]) := by
  rw [linkPass, collect_fails]
  simp only [List.mem_flatMap, List.mem_map]
  constructor
  · intro h
    obtain ⟨_, ⟨⟨cur, files⟩, hcur, f, hf, rfl⟩, hfails⟩ := h
    obtain ⟨hpre, -, e, hmem, hne⟩ := (mem_walk c.tree [rfd] cur f).mp ⟨files, hcur, hf⟩
    exact ⟨cur, f, e, hpre, hmem, hne, (linkFile_fails c cur f).mp hfails⟩
  · intro h
    obtain ⟨cur, f, e, hpre, hmem, hne, hfails⟩ := h
    obtain ⟨files, hcur, hf⟩ := (mem_walk c.tree [rfd] cur f).mpr ⟨hpre, hrfd, e, hmem, hne⟩
    exact ⟨(cur, f), ⟨(cur, files), hcur, f, hf, rfl⟩, (linkFile_fails c cur f).mpr hfails⟩

theorem aliasPass_fails (t : Tree) (seen : Dict Str Name) :
    Fails (aliasPass t seen) ↔ t.exists [aliasesMd] = true ∧
      ∀ bytes text, t.find? [aliasesMd] = some (.file bytes) → decode bytes ≠ some text := by
  unfold aliasPass
  by_cases hex : t.exists [aliasesMd] = false
  · simp [hex, not_fails_ok]
  · have hex' : t.exists [aliasesMd] = true := by simpa using hex
    rw [if_neg hex, fails_bind]
    simp only [hex', true_and]
    cases hread : readStrict t [aliasesMd] with
    | error e =>
        refine ⟨fun _ bytes text hfind hdecode => ?_, fun _ => Or.inl ⟨e, rfl⟩⟩
        have hok := (readStrict_eq_ok t [aliasesMd] text).mpr
          ⟨bytes, (read_eq_ok_iff ..).mpr hfind, hdecode⟩
        rw [hread] at hok
        cases hok
    | ok text =>
        obtain ⟨bytes, hbytes, hdecode⟩ := (readStrict_eq_ok t [aliasesMd] text).mp hread
        constructor
        · intro h
          rcases h with h | ⟨_, -, h⟩
          · exact absurd h (not_fails_ok _)
          · exact absurd h (not_fails_ok _)
        · exact fun h => absurd hdecode (h bytes text ((read_eq_ok_iff ..).mp hbytes))

theorem dirsPass_fails (t : Tree) (st : Numbering) :
    Fails ((candidates t).foldlM (checkDir t) st) ↔
      ∃ d, t.isdir [rfd, d] = true ∧ (first DIR_RE [] d).isSome ∧
        t.exists (indexOf d) = true ∧ Unreadable t (indexOf d) := by
  rw [foldlM_checkDir_fails]
  constructor
  · intro h
    obtain ⟨d, hd, hname, hbad⟩ := h
    exact ⟨d, ((mem_candidates ..).mp hd).1, hname, hbad⟩
  · intro h
    obtain ⟨d, hd, hname, hbad⟩ := h
    refine ⟨d, (mem_candidates ..).mpr ⟨hd, ?_⟩, hname, hbad⟩
    obtain ⟨m, hm⟩ := Option.isSome_iff_exists.mp hname
    obtain ⟨slug, tail, hnum, -, hsplit, -⟩ := first_dirRe hm
    rw [hsplit, List.append_assoc]
    exact candidate_of_name hnum (slug ++ tail)

theorem check_fails (U : Unicode) (c : Checkout) :
    Fails (check U c) ↔ c.tree.isdir [rfd] = true ∧ Raises c.tree := by
  unfold check
  by_cases hrfd : c.tree.isdir [rfd] = false
  · simp [hrfd, not_fails_ok]
  · have hrfd' : c.tree.isdir [rfd] = true := by simpa using hrfd
    rw [if_neg hrfd]
    simp only [fails_bind, dirsPass_fails, linkPass_fails c hrfd', aliasPass_fails, hrfd', true_and,
      Raises]
    constructor
    · intro h
      rcases h with h | ⟨_, -, h | ⟨_, -, h | ⟨_, -, h⟩⟩⟩
      · exact Or.inl h
      · exact Or.inr (Or.inl h)
      · exact Or.inr (Or.inr h)
      · exact absurd h (not_fails_ok _)
    · intro h
      by_cases hfold : ∃ d, c.tree.isdir [rfd, d] = true ∧ (first DIR_RE [] d).isSome ∧
          c.tree.exists (indexOf d) = true ∧ Unreadable c.tree (indexOf d)
      · exact Or.inl hfold
      right
      -- a pass that does not raise hands on to the next
      cases hstep : (candidates c.tree).foldlM (checkDir c.tree)
          ⟨if candidates c.tree = [] then [Problem.noDirectories] else [], .empty⟩ with
      | error e => exact absurd ((dirsPass_fails ..).mp ⟨e, hstep⟩) hfold
      | ok st =>
          refine ⟨st, rfl, ?_⟩
          rcases h with h | h | h
          · exact absurd h hfold
          · exact Or.inl h
          · cases hlinks : linkPass c with
            | error e => exact Or.inl ((linkPass_fails c hrfd').mp ⟨e, hlinks⟩)
            | ok links => exact Or.inr ⟨links, rfl, Or.inl h⟩

/-! ## What a pass reports at the other root -/

def Stationary (ps : List Problem) : Prop := ∀ p ∈ ps, ∀ root root', p.relocate root root' = p

theorem Stationary.append {ps qs : List Problem} (hp : Stationary ps) (hq : Stationary qs) :
    Stationary (ps ++ qs) := by
  intro p hmem
  rcases List.mem_append.mp hmem with hmem | hmem
  · exact hp p hmem
  · exact hq p hmem

theorem Stationary.map_eq {ps : List Problem} (h : Stationary ps) (root root' : Path) :
    ps.map (Problem.relocate root root') = ps := by
  rw [List.map_congr_left fun p hp => h p hp root root', List.map_id']

theorem stationary_nil : Stationary [] := by simp [Stationary]

theorem stationary_single {p : Problem} (h : ∀ root root', p.relocate root root' = p) :
    Stationary [p] := by
  simpa [Stationary] using h

theorem compareField_stationary (re : Regex Char) {missing : Problem} {differs : Str → Problem}
    (num body : Str) (hmissing : ∀ root root', missing.relocate root root' = missing)
    (hdiffers : ∀ found root root', (differs found).relocate root root' = differs found) :
    Stationary (compareField re missing differs num body) := by
  unfold compareField
  split
  · exact stationary_single hmissing
  · split
    · exact stationary_single (hdiffers _)
    · exact stationary_nil

theorem checkDir_stationary {t : Tree} {st st' : Numbering} {d : Name} (h : checkDir t st d = .ok st')
    (hst : Stationary st.problems) : Stationary st'.problems := by
  unfold checkDir at h
  split at h
  · rw [← Except.ok.inj h]
    exact hst.append (stationary_single fun _ _ => rfl)
  · next m _ =>
      have horg : Stationary
          (if (groupOf m).take 1 ≠ [ORG] then [Problem.badOrg d ((groupOf m).take 1)] else []) := by
        split
        · exact stationary_single fun _ _ => rfl
        · exact stationary_nil
      split at h
      · rw [← Except.ok.inj h]
        refine ((hst.append horg).append ?_).append (stationary_single fun _ _ => rfl)
        split
        · exact stationary_single fun _ _ => rfl
        · exact stationary_nil
      · split at h
        · cases h
        · rw [← Except.ok.inj h]
          refine (((hst.append horg).append ?_).append ?_).append ?_
          · split
            · exact stationary_single fun _ _ => rfl
            · exact stationary_nil
          · exact compareField_stationary _ _ _ (fun _ _ => rfl) fun _ _ _ => rfl
          · exact compareField_stationary _ _ _ (fun _ _ => rfl) fun _ _ _ => rfl

theorem foldlM_checkDir_stationary (t : Tree) : ∀ (dirs : List Name) (st st' : Numbering),
    dirs.foldlM (checkDir t) st = .ok st' → Stationary st.problems → Stationary st'.problems := by
  intro dirs
  induction dirs with
  | nil =>
      intro st st' h hst
      rwa [← Except.ok.inj (show Except.ok st = Except.ok st' from h)]
  | cons d rest ih =>
      intro st st' h hst
      rw [List.foldlM_cons, bind_eq_ok] at h
      obtain ⟨st₁, hstep, hrest⟩ := h
      exact ih st₁ st' hrest (checkDir_stationary hstep hst)

theorem aliasPass_stationary {t : Tree} {seen : Dict Str Name} {rows : List Problem}
    (h : aliasPass t seen = .ok rows) : Stationary rows := by
  unfold aliasPass at h
  split at h
  · rw [← Except.ok.inj h]
    exact stationary_single fun _ _ => rfl
  · rw [bind_eq_ok] at h
    obtain ⟨text, -, hrows⟩ := h
    rw [← Except.ok.inj hrows]
    intro p hp
    obtain ⟨num, -, rfl⟩ := List.mem_map.mp hp
    exact fun _ _ => rfl

def yielded {α : Type} (f : α → Except PyError (List Problem)) (a : α) : List Problem :=
  match f a with
  | .ok ps => ps
  | .error _ => []

theorem collect_eq_flatMap {α : Type} {f : α → Except PyError (List Problem)} : ∀ {l : List α}
    {ps : List Problem}, collect f l = .ok ps → ps = l.flatMap (yielded f) := by
  intro l
  induction l with
  | nil =>
      intro ps h
      exact (Except.ok.inj h).symm
  | cons a rest ih =>
      intro ps h
      simp only [collect, bind_eq_ok, pure, Except.pure, Except.ok.injEq] at h
      obtain ⟨here, hhere, later, hlater, rfl⟩ := h
      rw [List.flatMap_cons, ← ih hlater, yielded, hhere]

theorem movePath_append (root root' p : Path) : movePath root root' (root ++ p) = root' ++ p := by
  rw [movePath, List.drop_left]

theorem sorted_perm {l l' : List Str} (h : l.Perm l') : sorted l = sorted l' :=
  (((List.perm_insertionSort _ l).trans h).trans (List.perm_insertionSort _ l').symm).eq_of_pairwise'
    (List.pairwise_insertionSort _ l) (List.pairwise_insertionSort _ l')

theorem citePass_silent (U : Unicode) (c : Checkout) :
    citePass U c = [] ↔ skipped c.root = true ∨ Uncited U c := by
  rw [citePass_eq_nil_iff]
  unfold Uncited
  simp only [skipped_append, Bool.or_eq_false_iff]
  cases skipped c.root <;> simp

section Relocated
variable {U : Unicode} {c c' : Checkout} (h : Relocated c c')
include h

theorem Relocated.notScript (p : Path) : c.root ++ p = c.me ↔ c'.root ++ p = c'.me := by
  obtain ⟨place, hme, hme'⟩ := h.script
  rw [hme, hme', List.append_cancel_left_eq, List.append_cancel_left_eq]

theorem Relocated.citeFile (cur : Path) (f : Name) :
    (citeFile U c cur f).map (Problem.relocate c.root c'.root) = citeFile U c' cur f := by
  unfold CheckRfdNumbers.citeFile
  rw [readIgnore_perm h.tree]
  by_cases hskip : f = aliasesMd ∨ c.root ++ (cur ++ [f]) = c.me
  · have hskip' : f = aliasesMd ∨ c'.root ++ (cur ++ [f]) = c'.me :=
      hskip.imp id (h.notScript _).mp
    rw [if_pos hskip, if_pos hskip']
    rfl
  · have hskip' : ¬ (f = aliasesMd ∨ c'.root ++ (cur ++ [f]) = c'.me) :=
      fun hc => hskip (hc.imp id (h.notScript _).mpr)
    rw [if_neg hskip, if_neg hskip']
    cases readIgnore c'.tree (cur ++ [f]) with
    | error e => rfl
    | ok body =>
        simp only [List.map_map]
        refine List.map_congr_left fun num _ => ?_
        simp only [Function.comp, Problem.relocate, movePath_append]

theorem Relocated.linkFile (p : Path × Name) :
    (yielded (fun p => linkFile c p.1 p.2) p).map (Problem.relocate c.root c'.root) =
      yielded (fun p => linkFile c' p.1 p.2) p := by
  obtain ⟨cur, f⟩ := p
  unfold yielded CheckRfdNumbers.linkFile
  simp only [readIgnore_perm h.tree]
  by_cases hmd : ".md".toList.isSuffixOf f = true
  · rw [if_pos hmd, if_pos hmd]
    cases readIgnore c'.tree (cur ++ [f]) with
    | error e => rfl
    | ok body =>
        simp only [List.map_map, isdir_perm h.tree]
        refine List.map_congr_left fun target _ => ?_
        simp only [Function.comp, Problem.relocate, movePath_append]
  · rw [if_neg hmd, if_neg hmd]
    rfl

theorem Relocated.linkPass {links links' : List Problem} (hlinks : linkPass c = .ok links)
    (hlinks' : linkPass c' = .ok links') :
    (links.map (Problem.relocate c.root c'.root)).Perm links' := by
  rw [collect_eq_flatMap hlinks, collect_eq_flatMap hlinks', List.flatMap_assoc, List.flatMap_assoc,
    List.map_flatMap]
  refine walk_flatMap_perm h.tree [rfd] fun cur fs fs' hfs => ?_
  simp only [List.map_flatMap, h.linkFile]
  exact (hfs.map _).flatMap_right _

theorem Relocated.checkDir (st : Numbering) (d : Name) :
    checkDir c.tree st d = checkDir c'.tree st d := by
  unfold CheckRfdNumbers.checkDir
  rw [readIgnore_perm h.tree, exists_perm h.tree]

theorem Relocated.aliasPass (seen : Dict Str Name) :
    aliasPass c.tree seen = aliasPass c'.tree seen := by
  unfold CheckRfdNumbers.aliasPass
  rw [readStrict_perm h.tree, exists_perm h.tree]

theorem Relocated.candidates : candidates c.tree = candidates c'.tree := by
  unfold CheckRfdNumbers.candidates
  refine sorted_perm ?_
  simp only [isdir_perm h.tree]
  exact (listdir_perm h.tree [rfd]).filter _

theorem Relocated.citePass (hroot : skipped c.root = skipped c'.root) :
    ((citePass U c).map (Problem.relocate c.root c'.root)).Perm (citePass U c') := by
  unfold CheckRfdNumbers.citePass
  rw [List.map_flatMap]
  refine walk_flatMap_perm h.tree [] fun cur fs fs' hfs => ?_
  simp only [skipped_append, hroot]
  split
  · exact List.Perm.refl _
  · simp only [List.map_flatMap, h.citeFile]
    exact hfs.flatMap_right _

theorem Relocated.raises : Raises c.tree ↔ Raises c'.tree := by
  simp only [Raises, Unreadable, isdir_perm h.tree, exists_perm h.tree, find?_perm h.tree,
    h.tree.mem_iff]

theorem Relocated.uncited : Uncited U c ↔ Uncited U c' := by
  simp only [Uncited, h.tree.mem_iff, Ne, h.notScript]

theorem Relocated.citePass_iff :
    ((CheckRfdNumbers.citePass U c).map (Problem.relocate c.root c'.root)).Perm
        (CheckRfdNumbers.citePass U c') ↔
      skipped c.root = skipped c'.root ∨ Uncited U c := by
  constructor
  · intro hperm
    by_cases hroot : skipped c.root = skipped c'.root
    · exact Or.inl hroot
    right
    cases hskip : skipped c.root with
    | true =>
        -- the first walk is silent, so the second has to be
        rw [(citePass_silent U c).mpr (Or.inl hskip), List.map_nil, List.nil_perm] at hperm
        rcases (citePass_silent U c').mp hperm with hskip' | hcited
        · exact absurd (hskip.trans hskip'.symm) hroot
        · exact h.uncited.mpr hcited
    | false =>
        have hskip' : skipped c'.root = true := by
          rw [hskip] at hroot
          simpa using Ne.symm hroot
        rw [(citePass_silent U c').mpr (Or.inl hskip'), List.perm_nil, List.map_eq_nil_iff] at hperm
        rcases (citePass_silent U c).mp hperm with hskip | hcited
        · exact absurd (hskip.trans hskip'.symm) hroot
        · exact hcited
  · intro hcase
    rcases hcase with hroot | hcited
    · exact h.citePass hroot
    · rw [(citePass_silent U c).mpr (Or.inr hcited),
        (citePass_silent U c').mpr (Or.inr (h.uncited.mp hcited))]
      exact List.Perm.refl _

end Relocated

/-! ## The two verdicts -/

theorem check_eq_ok (U : Unicode) (c : Checkout) (hrfd : c.tree.isdir [rfd] = true)
    (ps : List Problem) :
    check U c = .ok ps ↔ ∃ st links rows,
      (candidates c.tree).foldlM (checkDir c.tree)
        ⟨if candidates c.tree = [] then [.noDirectories] else [], .empty⟩ = .ok st ∧
      linkPass c = .ok links ∧ aliasPass c.tree st.seen = .ok rows ∧
      ps = st.problems ++ citePass U c ++ links ++ rows := by
  unfold check
  rw [if_neg (by simp [hrfd])]
  simp only [bind_eq_ok, pure, Except.pure, Except.ok.injEq]
  constructor
  · intro h
    obtain ⟨st, hst, links, hlinks, rows, hrows, hps⟩ := h
    exact ⟨st, links, rows, hst, hlinks, hrows, hps.symm⟩
  · intro h
    obtain ⟨st, links, rows, hst, hlinks, hrows, hps⟩ := h
    exact ⟨st, hst, links, hlinks, rows, hrows, hps.symm⟩

theorem append_perm_iff {α : Type} {a x y l l' r : List α} (hl : l.Perm l') :
    (a ++ x ++ l ++ r).Perm (a ++ y ++ l' ++ r) ↔ x.Perm y := by
  rw [List.perm_append_right_iff, (hl.append_left (a ++ x)).congr_left, List.perm_append_right_iff,
    List.perm_append_left_iff]

theorem sameVerdict_ok {c c' : Checkout} {U : Unicode} (h : Relocated c c') {ps ps' : List Problem}
    (hrfd : c.tree.isdir [rfd] = true) (hps : check U c = .ok ps) (hps' : check U c' = .ok ps') :
    (ps.map (Problem.relocate c.root c'.root)).Perm ps' ↔
      skipped c.root = skipped c'.root ∨ Uncited U c := by
  have hrfd' : c'.tree.isdir [rfd] = true := by rw [← isdir_perm h.tree, hrfd]
  obtain ⟨st, links, rows, hst, hlinks, hrows, rfl⟩ := (check_eq_ok U c hrfd ps).mp hps
  obtain ⟨st', links', rows', hst', hlinks', hrows', rfl⟩ := (check_eq_ok U c' hrfd' ps').mp hps'
  -- the passes over the names and the alias table are the same run
  have hfold : checkDir c.tree = checkDir c'.tree := by
    funext st d
    exact h.checkDir st d
  rw [h.candidates, hfold, hst'] at hst
  obtain rfl := Except.ok.inj hst
  rw [h.aliasPass, hrows'] at hrows
  obtain rfl := Except.ok.inj hrows
  have hnames : Stationary st'.problems := by
    refine foldlM_checkDir_stationary _ _ _ _ hst' ?_
    split
    · exact stationary_single fun _ _ => rfl
    · exact stationary_nil
  rw [← h.citePass_iff, List.map_append, List.map_append, List.map_append, hnames.map_eq,
    (aliasPass_stationary hrows').map_eq]
  exact append_perm_iff (h.linkPass hlinks hlinks')

/-- The verdict moves with the tree exactly if the two roots are skipped alike, the run
ends before the citation walk counts, or nothing is there for that walk to find. -/
theorem location_independent_iff (U : Unicode) (c c' : Checkout) (h : Relocated c c') :
    SameVerdict c c' (check U c) (check U c') ↔
      skipped c.root = skipped c'.root ∨ c.tree.isdir [rfd] = false ∨ Raises c.tree ∨
        Uncited U c := by
  by_cases hrfd : c.tree.isdir [rfd] = false
  · have hrfd' : c'.tree.isdir [rfd] = false := by rw [← isdir_perm h.tree, hrfd]
    unfold check
    simp [hrfd, hrfd', SameVerdict, Problem.relocate]
  have hdir : c.tree.isdir [rfd] = true := by simpa using hrfd
  have hdir' : c'.tree.isdir [rfd] = true := by rw [← isdir_perm h.tree, hdir]
  cases hrun : check U c with
  | error e =>
      have hraises := ((check_fails U c).mp ⟨e, hrun⟩).2
      obtain ⟨e', hrun'⟩ := (check_fails U c').mpr ⟨hdir', h.raises.mp hraises⟩
      rw [hrun']
      simp [SameVerdict, hraises]
  | ok ps =>
      have hquiet : ¬ Raises c.tree := by
        intro hraises
        exact not_fails_ok ps (hrun ▸ (check_fails U c).mpr ⟨hdir, hraises⟩)
      cases hrun' : check U c' with
      | error e =>
          exact absurd (h.raises.mpr ((check_fails U c').mp ⟨e, hrun'⟩).2) hquiet
      | ok ps' =>
          rw [SameVerdict, sameVerdict_ok h hdir hrun hrun']
          simp [hrfd, hquiet]

def notedAt (name : Name) : Checkout where
  root := [name, "manuals".toList]
  me := [name, "manuals".toList] ++ ["check-rfd-numbers.py".toList]
  tree := sitedTree

theorem notedAt_relocated (name name' : Name) : Relocated (notedAt name) (notedAt name') :=
  ⟨List.Perm.refl _, ["check-rfd-numbers.py".toList], rfl, rfl⟩

theorem location_independent_iff_noted :
    SameVerdict (notedAt "tmp".toList) (notedAt "home".toList)
      (check .ascii (notedAt "tmp".toList)) (check .ascii (notedAt "home".toList)) :=
  (location_independent_iff .ascii _ _ (notedAt_relocated ..)).mpr (Or.inl (by decide))

/-- Below `_site` the note is not opened, and the gate is silent. -/
theorem verdict_moves :
    check .ascii (notedAt "tmp".toList) =
        .ok [.oldCitation ["tmp".toList, "manuals".toList, "note.md".toList] "0021".toList] ∧
      check .ascii (notedAt "_site".toList) = .ok [] ∧
      ¬ ∀ (U : Unicode) (c c' : Checkout), Relocated c c' →
        SameVerdict c c' (check U c) (check U c') := by
  have htmp : check .ascii (notedAt "tmp".toList) =
      .ok [.oldCitation ["tmp".toList, "manuals".toList, "note.md".toList] "0021".toList] := by
    decide +kernel
  have hsite : check .ascii (notedAt "_site".toList) = .ok [] := by decide +kernel
  refine ⟨htmp, hsite, fun hsame => ?_⟩
  have h := hsame .ascii _ _ (notedAt_relocated "tmp".toList "_site".toList)
  rw [htmp, hsite] at h
  simp [SameVerdict] at h

end CheckRfdNumbers
