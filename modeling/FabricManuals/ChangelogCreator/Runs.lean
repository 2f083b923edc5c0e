import FabricManuals.ChangelogCreator.Calendar

/-! # What one run does

`after_cases` is the whole of it: a run makes directories at most, or it makes the
directories and one new file whose contents come from the latest entry. -/
set_option autoImplicit false

namespace ChangelogCreator

open TextFile PosixPath Backtrack FileTree FileScript

theorem isDateText_of_isStem {s : Str} (h : IsStem s) : isDateText s = true := by
  have hfirst : (first stemRe [] s).isSome := by
    rw [first_isSome_iff]
    refine ⟨⟨s.reverse, [], none⟩, ?_⟩
    simp only [stemRe, bos, eos, run_concat_cons, run_concat_nil, List.mem_flatMap,
      mem_run_times_set]
    refine ⟨⟨[], s, none⟩, by simp [Regex.run], ⟨s.reverse, [], none⟩, ⟨s, h.length, h.digits, ?_, rfl⟩, ?_⟩
    · exact ⟨by simp, by simp⟩
    · simp [Regex.run]
  obtain ⟨d, hd⟩ := Option.isSome_iff_exists.mp hfirst
  unfold isDateText search
  cases s with
  | nil => rw [searchFrom, hd]; rfl
  | cons c rest => rw [searchFrom, hd]; rfl

section Latest
variable (g : Graphemes)

def latestIn (t : Tree) : Option Path := latestOf g (wildcardIn t deckLogPattern)

theorem latestOf_eq_none {files : List Path} (h : latestOf g files = none) :
    ∀ q ∈ files, isDateText (datePart g q) = false := by
  intro q hq
  rw [latestOf, Option.map_eq_none_iff, List.head?_eq_none_iff] at h
  by_contra hdate
  have hmem : (q, datePart g q) ∈ (files.map fun file => (file, datePart g file)).filter
      fun e => isDateText e.2 :=
    List.mem_filter.mpr ⟨List.mem_map.mpr ⟨q, hq, rfl⟩, by simpa using hdate⟩
  rw [← List.mem_insertionSort (fun a b : Path × Str => b.2 ≤ a.2), h] at hmem
  cases hmem

theorem latestOf_eq_some {files : List Path} {f : Path} (h : latestOf g files = some f) :
    f ∈ files ∧ ∀ q ∈ files, isDateText (datePart g q) = true → datePart g q ≤ datePart g f := by
  rw [latestOf, Option.map_eq_some_iff] at h
  obtain ⟨e, he, rfl⟩ := h
  generalize hdated : (files.map fun file => (file, datePart g file)).filter
    (fun e => isDateText e.2) = dated at he
  have hsorted := List.pairwise_insertionSort (fun a b : Path × Str => b.2 ≤ a.2) dated
  have hperm := List.perm_insertionSort (fun a b : Path × Str => b.2 ≤ a.2) dated
  obtain ⟨rest, hrest⟩ : ∃ rest, dated.insertionSort (fun a b => b.2 ≤ a.2) = e :: rest := by
    cases hl : dated.insertionSort (fun a b : Path × Str => b.2 ≤ a.2) with
    | nil => rw [hl] at he; cases he
    | cons x rest => rw [hl] at he; exact ⟨rest, by rw [Option.some.inj he]⟩
  rw [hrest] at hsorted hperm
  have hmem : ∀ x, x ∈ dated ↔ x.1 ∈ files ∧ x.2 = datePart g x.1 ∧ isDateText x.2 = true := by
    intro x
    rw [← hdated, List.mem_filter, List.mem_map]
    constructor
    · intro h
      obtain ⟨⟨q, hq, rfl⟩, hd⟩ := h
      exact ⟨hq, rfl, hd⟩
    · intro h
      obtain ⟨hq, hx, hd⟩ := h
      exact ⟨⟨x.1, hq, by rw [← hx]⟩, hd⟩
  obtain ⟨hfile, hpart, -⟩ := (hmem e).mp (hperm.mem_iff.mp (List.mem_cons_self ..))
  refine ⟨hfile, fun q hq hdate => ?_⟩
  have hin : (q, datePart g q) ∈ e :: rest := hperm.mem_iff.mpr ((hmem _).mpr ⟨hq, rfl, hdate⟩)
  rw [← hpart]
  rcases List.mem_cons.mp hin with heq | hin
  · rw [← heq]
  · exact (List.pairwise_cons.mp hsorted).1 _ hin

theorem exec_findLatest (t : Tree) :
    exec (findLatestDeckLogFile g) t = (t, .ok (latestIn g t)) := by
  rw [findLatestDeckLogFile, exec_bind, latestIn]
  rw [exec_wildcard, continueWith_ok]
  cases wildcardIn t deckLogPattern with
  | nil => rfl
  | cons f rest => rfl

end Latest

/-- `t'` is `t` with more directories, none of them one the pattern would match. -/
structure Grown (t t' : Tree) : Prop where
  kept : ∀ p e, t.find? p = some e → t'.find? p = some e
  new : ∀ p e, t'.find? p = some e →
    t.find? p = some e ∨ (t.find? p = none ∧ e = .dir ∧ deckLogPattern p = false)
  entries : wildcardIn t' deckLogPattern = wildcardIn t deckLogPattern

theorem Grown.refl (t : Tree) : Grown t t := ⟨fun _ _ h => h, fun _ _ h => Or.inl h, rfl⟩

theorem Grown.insert {t t' : Tree} (h : Grown t t') {q : Path} (hv : Vacant t' q)
    (hq : deckLogPattern q = false) : Grown t (t'.insert q .dir hv) where
  kept p e he := by
    have he' := h.kept p e he
    rw [find?_insert, if_neg, he']
    intro h
    subst h
    rw [hv.fresh] at he'
    cases he'
  new p e he := by
    rw [find?_insert] at he
    split at he
    · next hpq =>
        subst hpq
        cases hold : t.find? p with
        | none => exact Or.inr ⟨rfl, (Option.some.inj he).symm, hq⟩
        | some e' =>
            have := h.kept p e' hold
            rw [hv.fresh] at this
            cases this
    · exact h.new p e he
  entries := by
    rw [← h.entries, wildcardIn, wildcardIn, Tree.insert, List.map_append, List.filter_append]
    simp [hq]

theorem grown_mkdirs {t t' : Tree} {p : Path} (h : t.mkdirs p = .ok t')
    (hp : ∀ q, q <+: p → deckLogPattern q = false) : Grown t t' :=
  mkdirs_induct h (Grown.refl t) fun _ q hv hq hgrown => hgrown.insert hv (hp q hq)

/-- Files and directories, and no link that leads nowhere. -/
def NoDangling (t : Tree) : Prop := ∀ p, t.find? p ≠ some .dangling

theorem noDangling_of_entries {t : Tree} (h : ∀ e ∈ t.entries, e.2 ≠ .dangling) : NoDangling t := by
  intro p hp
  by_cases hne : p = []
  · subst hne
    simp [Tree.find?] at hp
  · exact h _ ((find?_eq_some_iff t hne _).mp hp) rfl

theorem Grown.noDangling {t t' : Tree} (h : Grown t t') (ht : NoDangling t) : NoDangling t' := by
  intro p hp
  rcases h.new p _ hp with hold | ⟨-, hdir, -⟩
  · exact ht p hold
  · cases hdir

section Run
variable {δ : Type} (tx : Timex δ) (g : Graphemes)

/-- What a new entry for the date `d` holds, as the tree stands. -/
def EntryContent (t : Tree) (d : δ) (content : Bin) : Prop :=
  match latestIn g t with
  | none => content = basicTemplate (tx.ymd d) (tx.weekday d)
  | some src => ∃ bytes, t.read src = .ok bytes ∧ content = updateContent (tx.ymd d) (tx.weekday d) bytes

theorem exec_copyAndUpdate (src p : Path) (date day : Bin) (t : Tree) :
    (exec (copyAndUpdateFile src p date day) t).1 = t ∨
      ∃ bytes, t.read src = .ok bytes ∧
        ∀ q, (exec (copyAndUpdateFile src p date day) t).1.find? q =
          if q = p then some (.file (updateContent date day bytes)) else t.find? q := by
  rw [copyAndUpdateFile, exec_bind, exec_cp, copyIn]
  cases hread : t.read src with
  | error e => exact Or.inl rfl
  | ok bytes =>
      simp only
      cases hcopy : t.write p bytes with
      | error e => exact Or.inl rfl
      | ok t₁ =>
          have hfile : t₁.find? p = some (.file bytes) := by rw [find?_write hcopy, if_pos rfl]
          obtain ⟨t₂, hwrite⟩ := write_over_file hfile (updateContent date day bytes)
          refine Or.inr ⟨bytes, rfl, fun q => ?_⟩
          rw [outcome_ok, continueWith_ok, exec_bind, exec_read ((read_eq_ok_iff ..).mpr hfile),
            continueWith_ok, exec_write, hwrite, outcome_ok]
          simp only [find?_write hwrite, find?_write hcopy]
          split <;> rfl

theorem exec_handleNewFileCreation (p : Path) (d : δ) (t : Tree) :
    (exec (handleNewFileCreation g p (tx.ymd d) (tx.weekday d)) t).1 = t ∨
      ∃ content, EntryContent tx g t d content ∧
        ∀ q, (exec (handleNewFileCreation g p (tx.ymd d) (tx.weekday d)) t).1.find? q =
          if q = p then some (.file content) else t.find? q := by
  rw [handleNewFileCreation, exec_bind, exec_findLatest, continueWith_ok]
  unfold EntryContent
  cases latestIn g t with
  | none =>
      simp only [createBasicTemplate, exec_write]
      cases hwrite : t.write p (basicTemplate (tx.ymd d) (tx.weekday d)) with
      | error e => exact Or.inl rfl
      | ok t' => exact Or.inr ⟨_, rfl, find?_write hwrite⟩
  | some src =>
      refine (exec_copyAndUpdate src p _ _ t).imp id ?_
      intro h
      obtain ⟨bytes, hread, hfind⟩ := h
      exact ⟨_, ⟨bytes, hread, rfl⟩, hfind⟩

def entryPath (stem : Str) : Path := [changelogDir, stem.take 4, stem ++ deckLogEnding]

theorem slice_ascii {s : Str} (h : ∀ c ∈ s, c.toNat < 128 ∧ c ≠ '\r') (n : Nat) :
    g.slice s n = s.take n := by
  rw [Graphemes.slice, g.split_ascii s h, ← List.map_take]
  induction s.take n with
  | nil => rfl
  | cons c rest ih => rw [List.map_cons, List.flatten_cons, ih, List.singleton_append]

theorem slice_stem {s : Str} (h : IsStem s) (n : Nat) : g.slice s n = s.take n :=
  slice_ascii g h.ascii n

theorem datePart_entryPath {stem : Str} (h : IsStem stem) : datePart g (entryPath stem) = stem := by
  rw [datePart, show basename (entryPath stem) = stem ++ deckLogEnding from rfl, slice_ascii]
  · rw [List.take_left' h.length]
  · intro c hc
    rcases List.mem_append.mp hc with hc | hc
    · exact h.ascii c hc
    · exact (by decide : ∀ c ∈ deckLogEnding, c.toNat < 128 ∧ c ≠ '\r') c hc

structure Newest (t : Tree) (stem : Str) : Prop where
  fresh : t.find? (entryPath stem) = none
  later : ∀ q ∈ wildcardIn t deckLogPattern, isDateText (datePart g q) = true → datePart g q < stem

/-- The run made the entry for `stem`, with its directories and nothing else. -/
structure Creates (t t' : Tree) (stem : Str) (d : δ) (content : Bin) : Prop where
  parsed : tx.parse stem = some d
  newest : Newest g t stem
  contents : EntryContent tx g t d content
  made : t'.find? (entryPath stem) = some (.file content)
  kept : ∀ p e, t.find? p = some e → t'.find? p = some e
  new : ∀ p e, t'.find? p = some e →
    t.find? p = some e ∨ (t.find? p = none ∧ e = .dir ∧ deckLogPattern p = false) ∨
      (p = entryPath stem ∧ e = .file content)

theorem find?_of_mem_wildcardIn {t : Tree} {keep : Path → Bool} {p : Path} (h : p ∈ wildcardIn t keep) :
    ∃ e, t.find? p = some e := by
  obtain ⟨⟨e, he⟩, -⟩ := (mem_wildcardIn ..).mp h
  exact ⟨e, (find?_eq_some_iff t (t.plain _ he).1 e).mpr he⟩

theorem Grown.latestIn_eq {t t' : Tree} (h : Grown t t') : latestIn g t' = latestIn g t := by
  rw [latestIn, latestIn, h.entries]

theorem Grown.read_latest {t t' : Tree} (h : Grown t t') {src : Path}
    (hsrc : latestIn g t = some src) {bytes : Bin} (hread : t'.read src = .ok bytes) :
    t.read src = .ok bytes := by
  obtain ⟨e, he⟩ := find?_of_mem_wildcardIn (latestOf_eq_some g hsrc).1
  rw [read_eq_ok_iff] at hread ⊢
  rw [h.kept src e he] at hread
  rw [he, hread]

theorem Grown.entryContent {t t' : Tree} (h : Grown t t') {d : δ} {content : Bin}
    (hcontent : EntryContent tx g t' d content) : EntryContent tx g t d content := by
  rw [EntryContent, h.latestIn_eq] at hcontent
  unfold EntryContent
  cases hlatest : latestIn g t with
  | none => rwa [hlatest] at hcontent
  | some src =>
      rw [hlatest] at hcontent
      obtain ⟨bytes, hread, rfl⟩ := hcontent
      exact ⟨bytes, h.read_latest g hlatest hread, rfl⟩

theorem Grown.creates {t t₁ t' : Tree} (h : Grown t t₁) {stem : Str} {d : δ} {content : Bin}
    (hparse : tx.parse stem = some d) (hfresh : t₁.find? (entryPath stem) = none)
    (hlater : ∀ q ∈ wildcardIn t₁ deckLogPattern, isDateText (datePart g q) = true → datePart g q < stem)
    (hcontent : EntryContent tx g t₁ d content)
    (hfind : ∀ q, t'.find? q = if q = entryPath stem then some (.file content) else t₁.find? q) :
    Creates tx g t t' stem d content where
  parsed := hparse
  newest := by
    refine ⟨?_, h.entries ▸ hlater⟩
    cases hold : t.find? (entryPath stem) with
    | none => rfl
    | some e => rw [h.kept _ e hold] at hfresh; cases hfresh
  contents := h.entryContent tx g hcontent
  made := by rw [hfind, if_pos rfl]
  kept p e he := by
    have he₁ := h.kept p e he
    rw [hfind, if_neg, he₁]
    intro h
    subst h
    rw [he₁] at hfresh
    cases hfresh
  new p e he := by
    rw [hfind] at he
    split at he
    · next hp => exact Or.inr (Or.inr ⟨hp, (Option.some.inj he).symm⟩)
    · exact (h.new p e he).imp id Or.inl

theorem deckLogPattern_dirs {s : Str} (h : IsStem s) :
    ∀ q, q <+: [changelogDir, s.take 4] → deckLogPattern q = false := by
  have hyear : deckLogEnding.isSuffixOf (s.take 4) = false := by
    rw [← Bool.not_eq_true, List.isSuffixOf_iff_suffix]
    intro hsuffix
    have hlen := hsuffix.length_le
    rw [List.length_take, h.length] at hlen
    exact absurd hlen (by decide)
  intro q hq
  have hcases : q = [] ∨ q = [changelogDir] ∨ q = [changelogDir, s.take 4] := by
    rw [← List.mem_inits] at hq
    simpa [List.inits] using hq
  rcases hcases with rfl | rfl | rfl
  · rfl
  · rfl
  · simp [deckLogPattern, hyear]

theorem touchIn_of_exists {t : Tree} {p : Path} {e : Entry} (h : t.find? p = some e) (he : e ≠ .dangling) :
    touchIn t p = .ok t := by
  rw [touchIn, h]
  cases e <;> first | rfl | exact absurd rfl he

theorem exists_eq_false_iff {t : Tree} (ht : NoDangling t) (p : Path) :
    t.exists p = false ↔ t.find? p = none := by
  unfold Tree.exists
  cases hfind : t.find? p with
  | none => simp
  | some e =>
      cases e with
      | dangling => exact absurd hfind (ht p)
      | _ => simp

theorem Grown.handleNewFileCreation_cases {t t₁ : Tree} (h : Grown t t₁) {stem : Str} {d : δ}
    (hparse : tx.parse stem = some d) (hfresh : t₁.find? (entryPath stem) = none)
    (hlater : ∀ q ∈ wildcardIn t₁ deckLogPattern, isDateText (datePart g q) = true → datePart g q < stem) :
    Grown t (exec (handleNewFileCreation g (entryPath stem) (tx.ymd d) (tx.weekday d)) t₁).1 ∨
      ∃ d' content, Creates tx g t
        (exec (handleNewFileCreation g (entryPath stem) (tx.ymd d) (tx.weekday d)) t₁).1 stem d' content := by
  rcases exec_handleNewFileCreation tx g (entryPath stem) d t₁ with hsame | ⟨content, hcontent, hfind⟩
  · rw [hsame]
    exact Or.inl h
  · exact Or.inr ⟨d, content, h.creates tx g hparse hfresh hlater hcontent hfind⟩

/-- One step of the changelog: directories, or directories and one newest entry. -/
theorem createChangelogEntry_cases (stem : Str) {t : Tree} (ht : NoDangling t) :
    Grown t (exec (createChangelogEntry tx g stem) t).1 ∨
      ∃ d content, Creates tx g t (exec (createChangelogEntry tx g stem) t).1 stem d content := by
  unfold createChangelogEntry
  cases hparse : tx.parse stem with
  | none => exact Or.inl (Grown.refl t)
  | some d =>
      have hstem := tx.parse_exact stem d hparse
      simp only [slice_stem g hstem, exec_bind, exec_mkdir_p]
      cases hmk : t.mkdirs [changelogDir, stem.take 4] with
      | error e => exact Or.inl (Grown.refl t)
      | ok t₁ =>
          have hgrown := grown_mkdirs hmk (deckLogPattern_dirs hstem)
          have ht₁ := hgrown.noDangling ht
          rw [outcome_ok, continueWith_ok, exec_bind, exec_exists?, continueWith_ok,
            show [changelogDir, stem.take 4] ++ [stem ++ deckLogEnding] = entryPath stem from rfl]
          by_cases hexists : t₁.exists (entryPath stem) = true
          · -- the entry is there: its times are renewed
            rw [if_pos hexists, exec_touch]
            cases hfind : t₁.find? (entryPath stem) with
            | none => rw [(exists_eq_false_iff ht₁ _).mpr hfind] at hexists; cases hexists
            | some e =>
                rw [touchIn_of_exists hfind fun h => ht₁ _ (h ▸ hfind)]
                exact Or.inl hgrown
          have hfresh := (exists_eq_false_iff ht₁ _).mp ((Bool.not_eq_true _).mp hexists)
          rw [if_neg hexists, exec_bind, exec_findLatest, continueWith_ok]
          cases hlatest : latestIn g t₁ with
          | none =>
              refine hgrown.handleNewFileCreation_cases tx g hparse hfresh fun q hq hdate => ?_
              rw [latestOf_eq_none g hlatest q hq] at hdate
              cases hdate
          | some latest =>
              obtain ⟨hmem, hmax⟩ := latestOf_eq_some g hlatest
              by_cases hlt : datePart g latest < stem
              · simp only [if_pos hlt]
                exact hgrown.handleNewFileCreation_cases tx g hparse hfresh fun q hq hdate =>
                  lt_of_le_of_lt (hmax q hq hdate) hlt
              · -- the stem is not newer: the latest entry's times are renewed
                obtain ⟨e, he⟩ := find?_of_mem_wildcardIn hmem
                simp only [if_neg hlt]
                rw [exec_touch, touchIn_of_exists he fun h => ht₁ _ (h ▸ he)]
                exact Or.inl hgrown

theorem after_cases (inv : Invocation) {t : Tree} (ht : NoDangling t) :
    Grown t (after tx g inv t) ∨ ∃ d content, Creates tx g t (after tx g inv t) inv.stem d content := by
  rw [after, main]
  cases validateDateFormat tx (getDateStem inv.today inv.args) with
  | error reason => exact Or.inl (Grown.refl t)
  | ok _ =>
      have hstatus : ∀ r : Tree × Except Crash Unit,
          (continueWith (fun _ => (pure 0 : Script Nat)) r).1 = r.1 := by
        rintro ⟨t', _ | _⟩ <;> rfl
      simp only [exec_bind, hstatus]
      exact createChangelogEntry_cases tx g inv.stem ht

end Run
end ChangelogCreator
