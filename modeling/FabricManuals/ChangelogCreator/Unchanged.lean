import FabricManuals.ChangelogCreator.Interruption

/-! # Runs that make no entry

Three tests end a run without a new entry, the last two of them behind the call that
makes the year's folder. -/
set_option autoImplicit false

namespace ChangelogCreator

open TextFile Backtrack FileTree FileScript PosixPath

section Script
variable {δ : Type} (tx : Timex δ) (g : Graphemes)

/-- The stem is no date, its entry is there, or the latest entry is not older. -/
def MakesNone (inv : Invocation) (t : Tree) : Prop :=
  validateDateFormat tx inv.stem ≠ .ok () ∨ t.exists (entryPath inv.stem) = true ∨
    ∃ latest, latestIn g t = some latest ∧ ¬ datePart g latest < inv.stem

/-- The same files and directories with the same contents. -/
def SameFiles (t t' : Tree) : Prop := ∀ p, t'.find? p = t.find? p

/-- Something other than a directory is where the entry's folders go. -/
def Blocked (t : Tree) (stem : Str) : Prop :=
  (∃ e, t.find? [changelogDir] = some e ∧ e ≠ .dir) ∨ ∃ e, t.find? (entryDir stem) = some e ∧ e ≠ .dir

variable {tx g} {stem : Str} {d : δ}

theorem mkdir_of_free {t : Tree} {p : Path} (hplain : ∀ n ∈ p, Plain n)
    (hparent : t.isdir p.dropLast = true) (hfree : ∀ e, t.find? p = some e → e = .dir) :
    ∃ t', t.mkdir p = .ok t' := by
  cases hfind : t.find? p with
  | none =>
      have hvacant : Vacant t p := ⟨hfind, hplain, hparent⟩
      exact ⟨_, by rw [Tree.mkdir, hfind]; exact dif_pos hvacant⟩
  | some e => exact ⟨t, mkdir_of_isdir (by rw [Tree.isdir, hfind, hfree e hfind]; rfl)⟩

theorem mkdir_of_taken {t : Tree} {p : Path} {e : Entry} (h : t.find? p = some e) (he : e ≠ .dir) :
    t.mkdir p = .error .notDirectory := by
  rw [Tree.mkdir, h]
  cases e <;> first | rfl | exact absurd rfl he

theorem mkdirs_entryDir (t : Tree) (stem : Str) :
    t.mkdirs (entryDir stem) = t.mkdir [changelogDir] >>= fun t' => t'.mkdir (entryDir stem) := by
  simp [Tree.mkdirs, entryDir]

theorem find?_mkdir_top {t t' : Tree} (h : t.mkdir [changelogDir] = .ok t') (stem : Str) :
    t'.find? (entryDir stem) = t.find? (entryDir stem) := by
  rcases mkdir_cases h with rfl | ⟨hv, rfl⟩
  · rfl
  · rw [find?_insert, if_neg (by simp [entryDir])]

theorem plain_year (hstem : IsStem stem) : Plain (stem.take 4) := by
  have hdigits : ∀ c ∈ stem.take 4, isDigit c = true := fun c hc => hstem.digits c (List.mem_of_mem_take hc)
  have hlen : (stem.take 4).length = 4 := by rw [List.length_take, hstem.length]; rfl
  have hnot : ∀ c, isDigit c = false → c ∉ stem.take 4 := fun c hc hmem => by
    rw [hdigits c hmem] at hc
    cases hc
  refine ⟨fun h => ?_, fun h => ?_, fun h => ?_, hnot '/' (by decide)⟩
  all_goals
    rw [h] at hlen
    exact absurd hlen (by decide)

theorem mkdirs_of_blocked {t : Tree} (h : Blocked t stem) : ∃ e, t.mkdirs (entryDir stem) = .error e := by
  rw [mkdirs_entryDir]
  cases htop : t.mkdir [changelogDir] with
  | error e => exact ⟨e, rfl⟩
  | ok t' =>
      rcases h with ⟨e, he, hne⟩ | ⟨e, he, hne⟩
      · rw [mkdir_of_taken he hne] at htop
        cases htop
      · rw [← find?_mkdir_top htop stem] at he
        exact ⟨_, mkdir_of_taken he hne⟩

theorem mkdirs_of_not_blocked {t : Tree} (hstem : IsStem stem) (h : ¬ Blocked t stem) :
    ∃ t', t.mkdirs (entryDir stem) = .ok t' := by
  rw [Blocked, not_or] at h
  obtain ⟨htop, hyear⟩ := h
  push Not at htop hyear
  obtain ⟨t₁, ht₁⟩ := mkdir_of_free (p := [changelogDir]) (by decide) rfl htop
  have hplain : ∀ n ∈ entryDir stem, Plain n := by
    intro n hn
    rcases List.mem_cons.mp hn with rfl | hn
    · decide
    · rw [List.mem_singleton.mp hn]
      exact plain_year hstem
  have hyear₁ : ∀ e, t₁.find? (entryDir stem) = some e → e = .dir := by
    rw [find?_mkdir_top ht₁]
    exact hyear
  obtain ⟨t₂, ht₂⟩ := mkdir_of_free hplain (isdir_of_mkdir ht₁ _ (Or.inl rfl)) hyear₁
  exact ⟨t₂, by rw [mkdirs_entryDir, ht₁]; exact ht₂⟩

theorem isdir_entryDir_of_entry {t : Tree} {e : Entry} (h : t.find? (entryPath stem) = some e) :
    t.isdir (entryDir stem) = true := by
  have hmem := (find?_eq_some_iff t (by simp [entryPath]) e).mp h
  have hparent := (t.closed _ hmem).resolve_left (by simp [entryPath])
  exact (isdir_iff t (by simp [entryDir])).mpr hparent

theorem mkdirs_of_isdir_entryDir {t : Tree} (h : t.isdir (entryDir stem) = true) :
    t.mkdirs (entryDir stem) = .ok t := by
  have hmem := (isdir_iff t (by simp [entryDir])).mp h
  have htop := (t.closed _ hmem).resolve_left (by simp [entryDir])
  have htop' : t.isdir [changelogDir] = true := (isdir_iff t (by simp)).mpr htop
  rw [mkdirs_entryDir, mkdir_of_isdir htop']
  exact mkdir_of_isdir h

theorem Grown.find?_entryPath_eq {t t' : Tree} (h : Grown t t') (hstem : IsStem stem) :
    t'.find? (entryPath stem) = t.find? (entryPath stem) := by
  cases hfind : t.find? (entryPath stem) with
  | none => exact h.find?_entryPath hstem hfind
  | some e => exact h.kept _ e hfind

theorem parse_of_valid {s : Str} (h : validateDateFormat tx s = .ok ()) : ∃ d, tx.parse s = some d := by
  unfold validateDateFormat at h
  split at h
  · split at h
    · next d hd => exact ⟨d, hd⟩
    · cases h
  · cases h

theorem after_of_invalid {inv : Invocation} (h : validateDateFormat tx inv.stem ≠ .ok ()) (t : Tree) :
    after tx g inv t = t := by
  unfold Invocation.stem at h
  rw [after, main]
  cases hvalid : validateDateFormat tx (getDateStem inv.today inv.args) with
  | ok _ => exact absurd hvalid h
  | error reason => rfl

theorem exec_of_blocked (hparse : tx.parse stem = some d) {t : Tree} (h : Blocked t stem) :
    (exec (createChangelogEntry tx g stem) t).1 = t := by
  obtain ⟨e, he⟩ := mkdirs_of_blocked h
  rw [createChangelogEntry_eq g hparse, exec_bind, exec_mkdir_p, he]
  rfl

theorem exec_of_exists (hparse : tx.parse stem = some d) {t : Tree} (h : t.exists (entryPath stem) = true) :
    (exec (createChangelogEntry tx g stem) t).1 = t := by
  obtain ⟨e, he, hne⟩ : ∃ e, t.find? (entryPath stem) = some e ∧ e ≠ .dangling := by
    cases hfind : t.find? (entryPath stem) with
    | none => simp [Tree.exists, hfind] at h
    | some e => exact ⟨e, rfl, by rintro rfl; simp [Tree.exists, hfind] at h⟩
  rw [exec_createChangelogEntry g hparse (mkdirs_of_isdir_entryDir (isdir_entryDir_of_entry he)),
    renewOrCreate, exec_bind, exec_exists?, continueWith_ok, if_pos h, exec_touch,
    touchIn_of_exists he hne, outcome_ok]

/-- A date gone by: the folder is made all the same, and the latest entry touched. -/
theorem exec_of_not_newer (hparse : tx.parse stem = some d) {t t₁ : Tree}
    (hmkdirs : t.mkdirs (entryDir stem) = .ok t₁) (hexists : ¬ t.exists (entryPath stem) = true)
    {latest : Path} (hlatest : latestIn g t = some latest) (hold : ¬ datePart g latest < stem) :
    exec (createChangelogEntry tx g stem) t = outcome t₁ (touchIn t₁ latest) := by
  have hstem := tx.parse_exact stem d hparse
  have hgrown := grown_mkdirs hmkdirs (deckLogPattern_dirs hstem)
  have hexists₁ : ¬ t₁.exists (entryPath stem) = true := by
    rwa [Tree.exists, hgrown.find?_entryPath_eq hstem, ← Tree.exists]
  rw [exec_createChangelogEntry g hparse hmkdirs, renewOrCreate, exec_bind, exec_exists?, continueWith_ok,
    if_neg hexists₁, exec_bind, exec_findLatest, continueWith_ok, hgrown.latestIn_eq, hlatest]
  simp only [if_neg hold]
  exact exec_touch latest t₁

/-- A link to nothing is written through when it is touched. -/
theorem find?_touchIn_dangling {t t' : Tree} {p : Path} (h : t.find? p = some .dangling)
    (htouch : touchIn t p = .ok t') : t'.find? p = some (.file []) := by
  rw [touchIn, h] at htouch
  rw [find?_write htouch, if_pos rfl]

theorem sameFiles_of_not_newer (hparse : tx.parse stem = some d) {t : Tree} (hblocked : ¬ Blocked t stem)
    (hexists : ¬ t.exists (entryPath stem) = true) {latest : Path} (hlatest : latestIn g t = some latest)
    (hold : ¬ datePart g latest < stem) :
    SameFiles t (exec (createChangelogEntry tx g stem) t).1 ↔
      t.isdir (entryDir stem) = true ∧ t.find? latest ≠ some .dangling := by
  have hstem := tx.parse_exact stem d hparse
  obtain ⟨t₁, hmkdirs⟩ := mkdirs_of_not_blocked hstem hblocked
  have hgrown := grown_mkdirs hmkdirs (deckLogPattern_dirs hstem)
  obtain ⟨e, he⟩ := find?_of_mem_wildcardIn (latestOf_eq_some g hlatest).1
  rw [exec_of_not_newer hparse hmkdirs hexists hlatest hold]
  by_cases hdangling : e = .dangling
  · subst hdangling
    -- the write behind the link adds a file
    obtain ⟨t₂, ht₂⟩ : ∃ t₂, touchIn t₁ latest = .ok t₂ := by
      rw [touchIn, hgrown.kept _ _ he]
      exact ⟨_, by rw [Tree.write, hgrown.kept _ _ he]⟩
    rw [ht₂, outcome_ok]
    refine ⟨fun hsame => ?_, fun h => absurd he h.2⟩
    have hfile := find?_touchIn_dangling (hgrown.kept _ _ he) ht₂
    rw [hsame latest, he] at hfile
    cases hfile
  · rw [touchIn_of_exists (hgrown.kept _ _ he) hdangling, outcome_ok]
    constructor
    · intro hsame
      have hdir := isdir_of_mkdirs hmkdirs (entryDir stem) List.prefix_rfl
      rw [Tree.isdir, hsame (entryDir stem)] at hdir
      exact ⟨hdir, by simpa [he] using hdangling⟩
    · rintro ⟨hdir, -⟩
      rw [mkdirs_of_isdir_entryDir hdir] at hmkdirs
      obtain rfl := Except.ok.inj hmkdirs
      exact fun p => rfl

variable (tx g)

/-- A run that makes no entry leaves the tree as it was exactly if the stem is no date, the
entry is there, its folder cannot be made, or the folder is there and the latest entry
is not a link to nothing. -/
theorem unchanged_iff (inv : Invocation) (t : Tree) (h : MakesNone tx g inv t) :
    SameFiles t (after tx g inv t) ↔
      validateDateFormat tx inv.stem ≠ .ok () ∨ t.exists (entryPath inv.stem) = true ∨
      Blocked t inv.stem ∨ (t.isdir (entryDir inv.stem) = true ∧
        ∀ latest, latestIn g t = some latest → t.find? latest ≠ some .dangling) := by
  by_cases hvalid : validateDateFormat tx inv.stem = .ok ()
  · obtain ⟨d, hparse⟩ := parse_of_valid hvalid
    rw [after_eq g hvalid]
    by_cases hexists : t.exists (entryPath inv.stem) = true
    · rw [exec_of_exists hparse hexists]
      exact ⟨fun _ => Or.inr (Or.inl hexists), fun _ _ => rfl⟩
    by_cases hblocked : Blocked t inv.stem
    · rw [exec_of_blocked hparse hblocked]
      exact ⟨fun _ => Or.inr (Or.inr (Or.inl hblocked)), fun _ _ => rfl⟩
    obtain ⟨latest, hlatest, hold⟩ := (h.resolve_left (not_not_intro hvalid)).resolve_left hexists
    rw [sameFiles_of_not_newer hparse hblocked hexists hlatest hold]
    simp [hvalid, hexists, hblocked, hlatest]
  · rw [after_of_invalid hvalid]
    exact ⟨fun _ => Or.inl hvalid, fun _ _ => rfl⟩

end Script

def sameYear : Invocation := ⟨["20240229".toList], "20250102".toList⟩

theorem unchanged_iff_sameYear :
    SameFiles oldTree (after gregorian asciiGraphemes sameYear oldTree) ↔
      validateDateFormat gregorian sameYear.stem ≠ .ok () ∨ oldTree.exists (entryPath sameYear.stem) = true ∨
      Blocked oldTree sameYear.stem ∨ (oldTree.isdir (entryDir sameYear.stem) = true ∧
        ∀ latest, latestIn asciiGraphemes oldTree = some latest → oldTree.find? latest ≠ some .dangling) :=
  unchanged_iff gregorian asciiGraphemes sameYear oldTree
    (Or.inr (Or.inr ⟨entryPath "20241231".toList, by decide +kernel, by decide +kernel⟩))

def yearBefore : Invocation := ⟨["20230101".toList], "20250102".toList⟩

theorem empty_year_is_left :
    ¬ ∀ (inv : Invocation) (t : Tree), MakesNone gregorian asciiGraphemes inv t →
      SameFiles t (after gregorian asciiGraphemes inv t) := by
  intro h
  have hnone : MakesNone gregorian asciiGraphemes yearBefore oldTree :=
    Or.inr (Or.inr ⟨entryPath "20241231".toList, by decide +kernel, by decide +kernel⟩)
  have hsame := h yearBefore oldTree hnone [changelogDir, "2023".toList]
  exact absurd hsame (by decide +kernel)

end ChangelogCreator
