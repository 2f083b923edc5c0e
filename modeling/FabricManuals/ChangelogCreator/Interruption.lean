import FabricManuals.ChangelogCreator.History

/-! # Runs that are cut off

A run that is cut off before it has opened the new entry's file is made good by the
next run for the same day.  After that the entry is there, and the next run renews its
times: it keeps what it finds, a beginning of the latest entry or of the new contents. -/
set_option autoImplicit false

namespace ChangelogCreator

open TextFile PosixPath FileTree FileScript

section Interruption
variable {δ : Type} (tx : Timex δ) (g : Graphemes)

/-- What a run for the date `d` can have put into its entry when it is cut off. -/
def PartContent (t : Tree) (d : δ) (part : Bin) : Prop :=
  match latestIn g t with
  | none => part <+: basicTemplate (tx.ymd d) (tx.weekday d)
  | some src => ∃ bytes, t.read src = .ok bytes ∧
      (part <+: bytes ∨ part <+: updateContent (tx.ymd d) (tx.weekday d) bytes)

/-- `c` is `t` with the file `p` and nothing else. -/
def Holds (t c : Tree) (p : Path) (part : Bin) : Prop :=
  ∀ q, c.find? q = if q = p then some (.file part) else t.find? q

/-! ## The new file -/

theorem cuts_findLatest (t : Tree) : ∀ c ∈ cuts (findLatestDeckLogFile g) t, c = t := by
  intro c hc
  rcases mem_cuts_bind _ _ c t hc with hc | ⟨t', files, hexec, hc⟩
  · rw [cuts_wildcard] at hc
    exact List.mem_singleton.mp hc
  · rw [exec_wildcard] at hexec
    have ht := (Prod.mk.inj hexec).1
    subst ht
    cases files with
    | nil => exact List.mem_singleton.mp hc
    | cons f rest => exact List.mem_singleton.mp hc

theorem Holds.of_write {t c : Tree} {p : Path} {part : Bin} (h : t.write p part = .ok c) :
    Holds t c p part :=
  find?_write h

theorem Holds.isdir {t c : Tree} {p q : Path} {part : Bin} (h : Holds t c p part)
    (hnew : t.find? p = none) (hq : t.isdir q = true) : c.isdir q = true := by
  rw [Tree.isdir, beq_iff_eq] at hq ⊢
  rw [h, if_neg, hq]
  intro heq
  rw [heq, hnew] at hq
  cases hq

theorem Holds.over {t t' c : Tree} {p : Path} {old part : Bin} (h : Holds t t' p old)
    (h' : Holds t' c p part) : Holds t c p part := by
  intro q
  rw [h', h]
  split <;> rfl

theorem cuts_copyAndUpdate {src p : Path} {date day : Bin} {t c : Tree}
    (hc : c ∈ cuts (copyAndUpdateFile src p date day) t) :
    c = t ∨ ∃ bytes part, t.read src = .ok bytes ∧
      (part <+: bytes ∨ part <+: updateContent date day bytes) ∧ Holds t c p part := by
  rcases mem_cuts_bind _ _ c t hc with hc | ⟨t₁, _, hcopy, hc⟩
  · -- cut off in the copy
    rcases mem_cuts_cp hc with hc | ⟨bytes, part, hread, hpart, hwrite⟩
    · exact Or.inl hc
    · exact Or.inr ⟨bytes, part, hread, Or.inl hpart, Holds.of_write hwrite⟩
  obtain ⟨bytes, hread, hwrite⟩ : ∃ bytes, t.read src = .ok bytes ∧ t.write p bytes = .ok t₁ := by
    rw [exec_cp, copyIn] at hcopy
    cases hread : t.read src with
    | error e => simp [hread, outcome] at hcopy
    | ok bytes =>
        refine ⟨bytes, rfl, ?_⟩
        cases hwrite : t.write p bytes with
        | error e => simp [hread, hwrite, outcome] at hcopy
        | ok t' => simp only [hread, hwrite, outcome_ok, Prod.mk.injEq] at hcopy; rw [hcopy.1]
  have hholds := Holds.of_write hwrite
  have hback : t₁.read p = .ok bytes := (read_eq_ok_iff ..).mpr ((hholds p).trans (if_pos rfl))
  have hcopied : ∃ bytes part, t.read src = .ok bytes ∧
      (part <+: bytes ∨ part <+: updateContent date day bytes) ∧ Holds t t₁ p part :=
    ⟨bytes, bytes, hread, Or.inl List.prefix_rfl, hholds⟩
  rcases mem_cuts_bind _ _ c t₁ hc with hc | ⟨t₂, content, hexec, hc⟩
  · rw [mem_cuts_read hc]
    exact Or.inr hcopied
  rw [exec_read hback] at hexec
  obtain ⟨rfl, hcontent⟩ := Prod.mk.inj hexec
  obtain rfl := Except.ok.inj hcontent
  -- cut off in the update
  rcases mem_cuts_write hc with rfl | ⟨part, hpart, hwrite⟩
  · exact Or.inr hcopied
  · exact Or.inr ⟨bytes, part, hread, Or.inr hpart, hholds.over (Holds.of_write hwrite)⟩

/-- The new file is not there yet, or it holds part of what it is made from. -/
theorem cuts_handleNewFileCreation {p : Path} {d : δ} {t c : Tree}
    (hc : c ∈ cuts (handleNewFileCreation g p (tx.ymd d) (tx.weekday d)) t) :
    c = t ∨ ∃ part, PartContent tx g t d part ∧ Holds t c p part := by
  rcases mem_cuts_bind _ _ c t hc with hc | ⟨t', found, hexec, hc⟩
  · exact Or.inl (cuts_findLatest g t c hc)
  rw [exec_findLatest] at hexec
  obtain ⟨rfl, hfound⟩ := Prod.mk.inj hexec
  obtain rfl := Except.ok.inj hfound
  unfold PartContent
  cases hlatest : latestIn g t with
  | none =>
      rw [hlatest] at hc
      rcases mem_cuts_write hc with hc | ⟨part, hpart, hwrite⟩
      · exact Or.inl hc
      · exact Or.inr ⟨part, hpart, Holds.of_write hwrite⟩
  | some src =>
      rw [hlatest] at hc
      refine (cuts_copyAndUpdate hc).imp id fun h => ?_
      obtain ⟨bytes, part, hread, hpart, hholds⟩ := h
      exact ⟨part, ⟨bytes, hread, hpart⟩, hholds⟩

theorem Grown.partContent {t t' : Tree} (h : Grown t t') {d : δ} {part : Bin}
    (hpart : PartContent tx g t' d part) : PartContent tx g t d part := by
  rw [PartContent, h.latestIn_eq] at hpart
  unfold PartContent
  cases hlatest : latestIn g t with
  | none => rwa [hlatest] at hpart
  | some src =>
      rw [hlatest] at hpart
      obtain ⟨bytes, hread, hpart⟩ := hpart
      exact ⟨bytes, h.read_latest g hlatest hread, hpart⟩

/-! ## The directories and the entry -/

variable {tx} {stem : Str} {d : δ}

def entryDir (stem : Str) : Path := [changelogDir, stem.take 4]

def renewOrCreate (tx : Timex δ) (stem : Str) (d : δ) : Script Unit := do
  if ← File.exists? (entryPath stem) then File.touch (entryPath stem)
  else
    match ← findLatestDeckLogFile g with
    | none => handleNewFileCreation g (entryPath stem) (tx.ymd d) (tx.weekday d)
    | some latestSourceFile =>
      if datePart g latestSourceFile < stem then
        handleNewFileCreation g (entryPath stem) (tx.ymd d) (tx.weekday d)
      else File.touch latestSourceFile

theorem createChangelogEntry_eq (hparse : tx.parse stem = some d) :
    createChangelogEntry tx g stem =
      File.mkdir_p (entryDir stem) >>= fun _ => renewOrCreate g tx stem d := by
  unfold createChangelogEntry
  simp only [hparse, slice_stem g (tx.parse_exact stem d hparse)]
  rfl

theorem exec_createChangelogEntry (hparse : tx.parse stem = some d) {t t₁ : Tree}
    (h : t.mkdirs (entryDir stem) = .ok t₁) :
    exec (createChangelogEntry tx g stem) t = exec (renewOrCreate g tx stem d) t₁ := by
  rw [createChangelogEntry_eq g hparse, exec_bind, exec_mkdir_p, h, outcome_ok, continueWith_ok]

theorem exec_renewOrCreate_of_file {c : Tree} {part : Bin}
    (hfile : c.find? (entryPath stem) = some (.file part)) :
    exec (renewOrCreate g tx stem d) c = (c, .ok ()) := by
  have hexists : c.exists (entryPath stem) = true := by rw [Tree.exists, hfile]
  rw [renewOrCreate, exec_bind, exec_exists?, continueWith_ok, if_pos hexists, exec_touch,
    touchIn_of_exists hfile (by simp), outcome_ok]

theorem find?_touch_latest {t : Tree} {latest : Path} (hlatest : latestIn g t = some latest)
    (hnew : t.find? (entryPath stem) = none) :
    (exec (File.touch latest) t).1.find? (entryPath stem) = none := by
  obtain ⟨e, he⟩ := find?_of_mem_wildcardIn (latestOf_eq_some g hlatest).1
  have hne : entryPath stem ≠ latest := by
    intro heq
    rw [heq, he] at hnew
    cases hnew
  rw [exec_touch]
  cases htouch : touchIn t latest with
  | error e => exact hnew
  | ok t' =>
      rw [touchIn, he] at htouch
      cases e with
      | dangling => rw [outcome_ok, find?_write htouch, if_neg hne, hnew]
      | _ => rw [outcome_ok, ← Except.ok.inj htouch, hnew]

theorem cuts_renewOrCreate {t c : Tree} {content : Bin} (hnew : t.find? (entryPath stem) = none)
    (hmade : (exec (renewOrCreate g tx stem d) t).1.find? (entryPath stem) = some (.file content))
    (hc : c ∈ cuts (renewOrCreate g tx stem d) t) :
    c = t ∨ ∃ part, PartContent tx g t d part ∧ Holds t c (entryPath stem) part := by
  have hexists : ¬ t.exists (entryPath stem) = true := by simp [Tree.exists, hnew]
  rw [renewOrCreate, exec_bind, exec_exists?, continueWith_ok, if_neg hexists, exec_bind,
    exec_findLatest, continueWith_ok] at hmade
  rcases mem_cuts_bind _ _ c t hc with hc | ⟨t', there, hexec, hc⟩
  · rw [cuts_exists?] at hc
    exact Or.inl (List.mem_singleton.mp hc)
  rw [exec_exists?] at hexec
  obtain ⟨rfl, hthere⟩ := Prod.mk.inj hexec
  rw [← Except.ok.inj hthere, if_neg hexists] at hc
  rcases mem_cuts_bind _ _ c t hc with hc | ⟨t', found, hexec, hc⟩
  · exact Or.inl (cuts_findLatest g t c hc)
  rw [exec_findLatest] at hexec
  obtain ⟨rfl, hfound⟩ := Prod.mk.inj hexec
  rw [← Except.ok.inj hfound] at hc
  cases hlatest : latestIn g t with
  | none =>
      rw [hlatest] at hc
      exact cuts_handleNewFileCreation tx g hc
  | some latest =>
      rw [hlatest] at hc hmade
      by_cases hlt : datePart g latest < stem
      · simp only [if_pos hlt] at hc
        exact cuts_handleNewFileCreation tx g hc
      · simp only [if_neg hlt] at hmade
        rw [find?_touch_latest g hlatest hnew] at hmade
        cases hmade

theorem Grown.find?_entryPath {t t' : Tree} (h : Grown t t') (hstem : IsStem stem)
    (hnew : t.find? (entryPath stem) = none) : t'.find? (entryPath stem) = none := by
  cases hfind : t'.find? (entryPath stem) with
  | none => rfl
  | some e =>
      rcases h.new _ e hfind with hold | ⟨-, -, hpattern⟩
      · rw [hnew] at hold
        cases hold
      · rw [(deckLogPattern_iff _).mpr (deckLog_entryPath hstem)] at hpattern
        cases hpattern

theorem cuts_createChangelogEntry (hparse : tx.parse stem = some d) {t c : Tree} {content : Bin}
    (hnew : t.find? (entryPath stem) = none)
    (hmade : (exec (createChangelogEntry tx g stem) t).1.find? (entryPath stem) = some (.file content))
    (hc : c ∈ cuts (createChangelogEntry tx g stem) t) :
    (c.find? (entryPath stem) = none ∧
      exec (createChangelogEntry tx g stem) c = exec (createChangelogEntry tx g stem) t) ∨
    ∃ part, PartContent tx g t d part ∧ c.find? (entryPath stem) = some (.file part) ∧
      exec (createChangelogEntry tx g stem) c = (c, .ok ()) := by
  have hstem := tx.parse_exact stem d hparse
  cases hmk : t.mkdirs (entryDir stem) with
  | error e =>
      rw [createChangelogEntry_eq g hparse, exec_bind, exec_mkdir_p, hmk] at hmade
      exact absurd (hnew.symm.trans hmade) (by simp)
  | ok t₁ =>
      rw [exec_createChangelogEntry g hparse hmk] at hmade
      rw [createChangelogEntry_eq g hparse] at hc
      have hgrown := grown_mkdirs hmk (deckLogPattern_dirs hstem)
      have hdirs := isdir_of_mkdirs hmk
      rcases mem_cuts_bind _ _ c t hc with hc | ⟨t', _, hexec, hc⟩
      · -- cut off among the directories
        obtain ⟨q, hq, hpart⟩ := mem_cuts_mkdir_p hc
        have hresume := (mkdirs_resume hpart hq).trans hmk
        have hsome := grown_mkdirs hpart fun r hr => deckLogPattern_dirs hstem r (hr.trans hq)
        refine Or.inl ⟨hsome.find?_entryPath hstem hnew, ?_⟩
        rw [exec_createChangelogEntry g hparse hresume, exec_createChangelogEntry g hparse hmk]
      rw [exec_mkdir_p, hmk] at hexec
      obtain ⟨rfl, -⟩ := Prod.mk.inj hexec
      have hnew₁ := hgrown.find?_entryPath hstem hnew
      rcases cuts_renewOrCreate g hnew₁ hmade hc with rfl | ⟨part, hpart, hholds⟩
      · refine Or.inl ⟨hnew₁, ?_⟩
        rw [exec_createChangelogEntry g hparse (mkdirs_of_isdir hdirs),
          exec_createChangelogEntry g hparse hmk]
      · have hfile := (hholds (entryPath stem)).trans (if_pos rfl)
        have hdirs' : c.mkdirs (entryDir stem) = .ok c :=
          mkdirs_of_isdir fun q hq => hholds.isdir hnew₁ (hdirs q hq)
        refine Or.inr ⟨part, hgrown.partContent tx g hpart, hfile, ?_⟩
        rw [exec_createChangelogEntry g hparse hdirs', exec_renewOrCreate_of_file g hfile]

/-! ## Whole runs -/

theorem after_eq {inv : Invocation} (hvalid : validateDateFormat tx inv.stem = .ok ()) (t : Tree) :
    after tx g inv t = (exec (createChangelogEntry tx g inv.stem) t).1 := by
  have hstatus : ∀ r : Tree × Except Crash Unit,
      (continueWith (fun _ => (pure 0 : Script Nat)) r).1 = r.1 := by
    intro r
    obtain ⟨t', result⟩ := r
    cases result <;> rfl
  unfold Invocation.stem at hvalid ⊢
  rw [after, main, hvalid]
  simp only [exec_bind, hstatus]

theorem cuts_main {inv : Invocation} (hvalid : validateDateFormat tx inv.stem = .ok ()) {t c : Tree}
    (hc : c ∈ cuts (main tx g inv.today inv.args) t) :
    c ∈ cuts (createChangelogEntry tx g inv.stem) t := by
  unfold Invocation.stem at hvalid ⊢
  rw [main, hvalid] at hc
  rcases mem_cuts_bind _ _ c t hc with hc | ⟨t', _, hexec, hc⟩
  · exact hc
  · have hlast := exec_mem_cuts (createChangelogEntry tx g (getDateStem inv.today inv.args)) t
    rw [hexec] at hlast
    obtain rfl := List.mem_singleton.mp hc
    exact hlast

theorem valid_of_made {inv : Invocation} {t : Tree} {content : Bin}
    (hnew : t.find? (entryPath inv.stem) = none)
    (hmade : (after tx g inv t).find? (entryPath inv.stem) = some (.file content)) :
    validateDateFormat tx inv.stem = .ok () ∧ ∃ d, tx.parse inv.stem = some d := by
  have hvalid : validateDateFormat tx inv.stem = .ok () := by
    cases hvalid : validateDateFormat tx inv.stem with
    | ok _ => rfl
    | error reason =>
        unfold Invocation.stem at hvalid
        rw [after, main, hvalid] at hmade
        exact absurd (hnew.symm.trans hmade) (by simp)
  refine ⟨hvalid, ?_⟩
  cases hparse : tx.parse inv.stem with
  | some d => exact ⟨d, rfl⟩
  | none =>
      rw [after_eq g hvalid, createChangelogEntry, hparse] at hmade
      exact absurd (hnew.symm.trans hmade) (by simp)

variable (tx)

/-- A run that makes an entry is cut off and followed by another for the same day.  The
entry is what an uninterrupted run makes of it exactly if the first run had not begun
it, or had finished; else it stays as the first run left it. -/
theorem rerun_iff {first again : Invocation} {t c : Tree} {content : Bin}
    (hfirst : first.stem = stem) (hagain : again.stem = stem)
    (hnew : t.find? (entryPath stem) = none)
    (hmade : (after tx g first t).find? (entryPath stem) = some (.file content))
    (hcut : c ∈ cuts (main tx g first.today first.args) t) :
    ((after tx g again c).find? (entryPath stem) = some (.file content) ↔
      c.find? (entryPath stem) = none ∨ c.find? (entryPath stem) = some (.file content)) ∧
    (c.find? (entryPath stem) = none → after tx g again c = after tx g first t) ∧
    (∀ e, c.find? (entryPath stem) = some e →
      after tx g again c = c ∧
        ∃ d part, tx.parse stem = some d ∧ e = .file part ∧ PartContent tx g t d part) := by
  subst hfirst
  obtain ⟨hvalid, d, hparse⟩ := valid_of_made g hnew hmade
  have hagain_eq : after tx g again c = (exec (createChangelogEntry tx g first.stem) c).1 := by
    rw [← hagain] at hvalid ⊢
    exact after_eq g hvalid c
  have hcut' := cuts_main g hvalid hcut
  have hfirst_eq := after_eq g hvalid t
  rw [hfirst_eq] at hmade
  rcases cuts_createChangelogEntry g hparse hnew hmade hcut' with
    ⟨hnone, hsame⟩ | ⟨part, hpart, hfile, hkept⟩
  · -- nothing of the entry was there: the next run does it all
    rw [hagain_eq, hsame, hfirst_eq]
    refine ⟨iff_of_true hmade (Or.inl hnone), fun _ => rfl, fun e he => ?_⟩
    rw [hnone] at he
    cases he
  · rw [hagain_eq, hkept]
    refine ⟨?_, fun hnone => ?_, fun e he => ?_⟩
    · rw [hfile]
      simp
    · rw [hnone] at hfile
      cases hfile
    · rw [hfile] at he
      exact ⟨rfl, d, part, hparse, (Option.some.inj he).symm, hpart⟩

end Interruption
/-! Cut off after the copy, a run leaves the last entry under the new name, and there it stays. -/

def filledIn : Bin := ascii "# V-Sekai Deck Log - 2024-12-31 (Tuesday)\n\nDate: %%DATE%%\n".toList

def loggedTree : Tree where
  entries :=
    [([changelogDir], .dir), ([changelogDir, "2024".toList], .dir),
      (entryPath "20241231".toList, .file filledIn)]
  nodup := by decide
  plain := by decide +kernel
  closed := by decide +kernel

def newYear : Invocation := ⟨["20250101".toList], "20250102".toList⟩

def newYearLog : Bin := ascii "# V-Sekai Deck Log - 2025-01-01 (Wednesday)\n\nDate: 2025-01-01\n".toList

theorem newYear_made : (after gregorian asciiGraphemes newYear loggedTree).find?
    (entryPath "20250101".toList) = some (.file newYearLog) := by
  decide +kernel

theorem newYear_copied : ∃ c ∈ cuts (main gregorian asciiGraphemes newYear.today newYear.args) loggedTree,
    c.find? (entryPath "20250101".toList) = some (.file filledIn) ∧
      (after gregorian asciiGraphemes newYear c).find? (entryPath "20250101".toList) =
        some (.file filledIn) := by
  decide +kernel

theorem rerun_iff_copied : ∃ c ∈ cuts (main gregorian asciiGraphemes newYear.today newYear.args) loggedTree,
    c.find? (entryPath "20250101".toList) = some (.file filledIn) ∧
      after gregorian asciiGraphemes newYear c = c := by
  obtain ⟨c, hcut, hfile, -⟩ := newYear_copied
  have hrerun := @rerun_iff _ gregorian asciiGraphemes _ newYear newYear _ _ _ rfl rfl
    (by decide +kernel) newYear_made hcut
  exact ⟨c, hcut, hfile, (hrerun.2.2 _ hfile).1⟩

theorem copied_entry_is_kept :
    ¬ ∀ (first again : Invocation) (stem : Str) (t c : Tree) (content : Bin),
      first.stem = stem → again.stem = stem → t.find? (entryPath stem) = none →
      (after gregorian asciiGraphemes first t).find? (entryPath stem) = some (.file content) →
      c ∈ cuts (main gregorian asciiGraphemes first.today first.args) t →
      (after gregorian asciiGraphemes again c).find? (entryPath stem) = some (.file content) := by
  intro h
  obtain ⟨c, hcut, -, hkept⟩ := newYear_copied
  have hsame := h newYear newYear "20250101".toList loggedTree c newYearLog rfl rfl
    (by decide +kernel) newYear_made hcut
  rw [hkept] at hsame
  exact absurd hsame (by decide +kernel)

end ChangelogCreator
