import FabricManuals.ChangelogCreator.Runs

/-! # The changelog over a history of runs

Runs keep every file, add one entry at most, and date it after every entry there is;
over a whole history the dates of the entries added grow. -/
set_option autoImplicit false

namespace ChangelogCreator

open TextFile FileTree FileScript

/-- `*-deck-log.md` somewhere below `changelog`, with no hidden name on the way. -/
def DeckLog (p : Path) : Prop :=
  ∃ dirs stem, p = changelogDir :: (dirs ++ [stem ++ deckLogEnding]) ∧
    ∀ n ∈ dirs ++ [stem ++ deckLogEnding], n.head? ≠ some '.'

theorem deckLogPattern_iff (p : Path) : deckLogPattern p = true ↔ DeckLog p := by
  cases p with
  | nil => simp [deckLogPattern, DeckLog]
  | cons top rest =>
      simp only [deckLogPattern, Bool.and_eq_true, beq_iff_eq, List.all_eq_true, bne_iff_ne,
        Option.any_eq_true, List.isSuffixOf_iff_suffix]
      constructor
      · intro h
        obtain ⟨⟨rfl, hvisible⟩, name, hname, stem, rfl⟩ := h
        obtain ⟨dirs, rfl⟩ := List.getLast?_eq_some_iff.mp hname
        exact ⟨dirs, stem, rfl, hvisible⟩
      · intro h
        obtain ⟨dirs, stem, heq, hvisible⟩ := h
        obtain ⟨rfl, rfl⟩ := List.cons.inj heq
        exact ⟨⟨rfl, hvisible⟩, stem ++ deckLogEnding, by simp, List.suffix_append _ _⟩

theorem deckLog_entryPath {stem : Str} (h : IsStem stem) : DeckLog (entryPath stem) := by
  refine ⟨[stem.take 4], stem, rfl, ?_⟩
  obtain ⟨c, rest, rfl⟩ := List.exists_cons_of_length_eq_add_one h.length
  have hdigit : c ≠ '.' := by
    intro h
    subst h
    exact absurd (h.digits '.' (List.mem_cons_self ..)) (by decide)
  intro n hn
  have hhead : n.head? = some c := by
    rcases List.mem_append.mp hn with hn | hn
    · rw [List.mem_singleton.mp hn, List.take_succ_cons, List.head?_cons]
    · rw [List.mem_singleton.mp hn, List.cons_append, List.head?_cons]
  rw [hhead]
  exact fun heq => hdigit (Option.some.inj heq)

def newFiles (t t' : Tree) : List Path :=
  (t'.entries.filter fun e => e.2 ≠ .dir ∧ t.find? e.1 = none).map Prod.fst

theorem mem_newFiles {t t' : Tree} {p : Path} :
    p ∈ newFiles t t' ↔ ∃ e, t'.find? p = some e ∧ e ≠ .dir ∧ t.find? p = none := by
  simp only [newFiles, List.mem_map, List.mem_filter, decide_eq_true_eq]
  constructor
  · intro h
    obtain ⟨⟨q, e⟩, ⟨hmem, hfile, hfresh⟩, rfl⟩ := h
    exact ⟨e, (find?_eq_some_iff t' (t'.plain _ hmem).1 e).mpr hmem, hfile, hfresh⟩
  · intro h
    obtain ⟨e, hfind, hfile, hfresh⟩ := h
    have hne : p ≠ [] := by
      intro h
      subst h
      simp [Tree.find?] at hfresh
    exact ⟨(p, e), ⟨(find?_eq_some_iff t' hne e).mp hfind, hfile, hfresh⟩, rfl⟩

theorem nodup_newFiles (t t' : Tree) : (newFiles t t').Nodup :=
  t'.nodup.sublist (List.Sublist.map _ List.filter_sublist)

section History
variable {δ : Type} (tx : Timex δ) (g : Graphemes)

/-- The run for `stem` took the tree from `t` to `t'` without touching its history. -/
structure KeepsHistory (t : Tree) (stem : Str) (t' : Tree) : Prop where
  kept : ∀ p e, t.find? p = some e → t'.find? p = some e
  one : (newFiles t t').length ≤ 1
  added : ∀ p ∈ newFiles t t', p = entryPath stem ∧ (∃ d, tx.parse stem = some d) ∧
    ∀ q e, t.find? q = some e → DeckLog q → IsStem (g.slice (basename q) 8) →
      Earlier (g.slice (basename q) 8) stem

def addedFiles : List Invocation → Tree → List Path
  | [], _ => []
  | inv :: rest, t => newFiles t (after tx g inv t) ++ addedFiles rest (after tx g inv t)

def addedStems : List Invocation → Tree → List Str
  | [], _ => []
  | inv :: rest, t =>
    (newFiles t (after tx g inv t)).map (fun _ => inv.stem) ++ addedStems rest (after tx g inv t)

theorem Grown.newFiles {t t' : Tree} (h : Grown t t') : newFiles t t' = [] := by
  rw [List.eq_nil_iff_forall_not_mem]
  intro p hp
  obtain ⟨e, hfind, hfile, hfresh⟩ := mem_newFiles.mp hp
  rcases h.new p e hfind with hold | ⟨-, hdir, -⟩
  · rw [hfresh] at hold
    cases hold
  · exact hfile hdir

variable {tx g}

theorem Creates.isStem {t t' : Tree} {stem : Str} {d : δ} {content : Bin}
    (h : Creates tx g t t' stem d content) : IsStem stem :=
  tx.parse_exact stem d h.parsed

theorem Creates.newFiles {t t' : Tree} {stem : Str} {d : δ} {content : Bin}
    (h : Creates tx g t t' stem d content) : newFiles t t' = [entryPath stem] := by
  have hmem : ∀ p, p ∈ ChangelogCreator.newFiles t t' ↔ p = entryPath stem := by
    intro p
    rw [mem_newFiles]
    constructor
    · intro h
      obtain ⟨e, hfind, hfile, hfresh⟩ := h
      rcases h.new p e hfind with hold | ⟨-, hdir, -⟩ | ⟨hp, -⟩
      · rw [hfresh] at hold
        cases hold
      · exact absurd hdir hfile
      · exact hp
    · intro h
      subst h
      exact ⟨.file content, h.made, by simp, h.newest.fresh⟩
  have hnodup := nodup_newFiles t t'
  cases hfiles : ChangelogCreator.newFiles t t' with
  | nil => exact absurd ((hmem (entryPath stem)).mpr rfl) (by simp [hfiles])
  | cons p rest =>
      rw [hfiles] at hmem hnodup
      obtain rfl := (hmem p).mp (List.mem_cons_self ..)
      cases rest with
      | nil => rfl
      | cons q rest =>
          obtain rfl := (hmem q).mp (by simp)
          simp at hnodup

theorem Creates.earlier {t t' : Tree} {stem : Str} {d : δ} {content : Bin}
    (h : Creates tx g t t' stem d content) {q : Path} {e : Entry} (hq : t.find? q = some e)
    (hlog : DeckLog q) (hdate : IsStem (g.slice (basename q) 8)) :
    Earlier (g.slice (basename q) 8) stem := by
  have hne : q ≠ [] := by
    obtain ⟨dirs, name, rfl, -⟩ := hlog
    exact List.cons_ne_nil _ _
  rw [earlier_iff_lt hdate h.isStem]
  refine h.newest.later q ((mem_wildcardIn ..).mpr ⟨⟨e, ?_⟩, (deckLogPattern_iff q).mpr hlog⟩)
    (isDateText_of_isStem hdate)
  exact (find?_eq_some_iff t hne e).mp hq

theorem Creates.noDangling {t t' : Tree} {stem : Str} {d : δ} {content : Bin}
    (h : Creates tx g t t' stem d content) (ht : NoDangling t) : NoDangling t' := by
  intro p hp
  rcases h.new p _ hp with hold | ⟨-, hdir, -⟩ | ⟨-, hfile⟩
  · exact ht p hold
  · cases hdir
  · cases hfile

variable (tx g)

theorem after_noDangling (inv : Invocation) {t : Tree} (ht : NoDangling t) :
    NoDangling (after tx g inv t) := by
  rcases after_cases tx g inv ht with h | ⟨d, content, h⟩
  · exact h.noDangling ht
  · exact h.noDangling ht

theorem after_keepsHistory (inv : Invocation) {t : Tree} (ht : NoDangling t) :
    KeepsHistory tx g t inv.stem (after tx g inv t) := by
  rcases after_cases tx g inv ht with h | ⟨d, content, h⟩
  · refine ⟨h.kept, by simp [h.newFiles], ?_⟩
    rw [h.newFiles]
    exact fun p hp => absurd hp List.not_mem_nil
  · refine ⟨h.kept, by simp [h.newFiles], ?_⟩
    rw [h.newFiles]
    intro p hp
    exact ⟨List.mem_singleton.mp hp, ⟨d, h.parsed⟩, fun q e hq hlog => h.earlier hq hlog⟩

theorem runAll_concat (invs : List Invocation) (inv : Invocation) (t : Tree) :
    runAll tx g (invs ++ [inv]) t = after tx g inv (runAll tx g invs t) := by
  rw [runAll, List.foldl_append]
  rfl

theorem runAll_noDangling (invs : List Invocation) {t : Tree} (ht : NoDangling t) :
    NoDangling (runAll tx g invs t) := by
  induction invs generalizing t with
  | nil => exact ht
  | cons inv rest ih => exact ih (after_noDangling tx g inv ht)

theorem addedStems_concat (invs : List Invocation) (inv : Invocation) (t : Tree) :
    addedStems tx g (invs ++ [inv]) t = addedStems tx g invs t ++
      (newFiles (runAll tx g invs t) (runAll tx g (invs ++ [inv]) t)).map fun _ => inv.stem := by
  induction invs generalizing t with
  | nil => simp [addedStems, runAll]
  | cons first rest ih =>
      rw [List.cons_append, addedStems, ih, addedStems, List.append_assoc]
      rfl

theorem addedFiles_eq_map (invs : List Invocation) {t : Tree} (ht : NoDangling t) :
    addedFiles tx g invs t = (addedStems tx g invs t).map entryPath := by
  induction invs generalizing t with
  | nil => rfl
  | cons inv rest ih =>
      rw [addedFiles, addedStems, ih (after_noDangling tx g inv ht)]
      rcases after_cases tx g inv ht with h | ⟨d, content, h⟩ <;> simp [h.newFiles]

theorem addedStems_later (invs : List Invocation) {t : Tree} (ht : NoDangling t) :
    ∀ s ∈ addedStems tx g invs t, ∀ q e, t.find? q = some e → DeckLog q → IsStem (datePart g q) →
      Earlier (datePart g q) s := by
  induction invs generalizing t with
  | nil => exact fun s hs => absurd hs List.not_mem_nil
  | cons inv rest ih =>
      intro s hs q e hq
      unfold addedStems at hs
      rcases after_cases tx g inv ht with h | ⟨d, content, h⟩
      · rw [h.newFiles] at hs
        exact ih (after_noDangling tx g inv ht) s hs q e (h.kept q e hq)
      · rw [h.newFiles] at hs
        rcases List.mem_cons.mp hs with rfl | hs
        · exact h.earlier hq
        · exact ih (after_noDangling tx g inv ht) s hs q e (h.kept q e hq)

theorem addedStems_increasing (invs : List Invocation) {t : Tree} (ht : NoDangling t) :
    (addedStems tx g invs t).Pairwise Earlier := by
  induction invs generalizing t with
  | nil => exact List.Pairwise.nil
  | cons inv rest ih =>
      have ht' := after_noDangling tx g inv ht
      unfold addedStems
      rcases after_cases tx g inv ht with h | ⟨d, content, h⟩
      · rw [h.newFiles]
        exact ih ht'
      · rw [h.newFiles]
        refine List.pairwise_cons.mpr ⟨fun s hs => ?_, ih ht'⟩
        have hlater := addedStems_later tx g rest ht' s hs _ _ h.made (deckLog_entryPath h.isStem)
        rw [datePart_entryPath g h.isStem] at hlater
        exact hlater h.isStem

theorem nodup_of_increasing {stems : List Str} (h : stems.Pairwise Earlier) : stems.Nodup := by
  apply h.imp
  rintro s _ hlt rfl
  simp [Earlier] at hlt

/-- Every run of a history keeps what it finds and adds at most the newest entry, and the
dates of the entries added grow from each to the next. -/
theorem history_invariant {t : Tree} (ht : NoDangling t) (invs : List Invocation) :
    (∀ before inv rest, invs = before ++ inv :: rest →
      KeepsHistory tx g (runAll tx g before t) inv.stem (runAll tx g (before ++ [inv]) t)) ∧
    addedFiles tx g invs t = (addedStems tx g invs t).map entryPath ∧
    (addedStems tx g invs t).Pairwise Earlier ∧ (addedStems tx g invs t).Nodup := by
  refine ⟨?_, addedFiles_eq_map tx g invs ht, addedStems_increasing tx g invs ht,
    nodup_of_increasing (addedStems_increasing tx g invs ht)⟩
  intro before inv rest _
  rw [runAll_concat]
  exact after_keepsHistory tx g inv (runAll_noDangling tx g before ht)

end History

/-! An old entry and four calls: a repeated day and a day gone by add nothing. -/

def oldTree : Tree where
  entries :=
    [([changelogDir], .dir), ([changelogDir, "2024".toList], .dir),
      (entryPath "20241231".toList, .file (ascii "# Notes\n".toList))]
  nodup := by decide
  plain := by decide
  closed := by decide

theorem oldTree_noDangling : NoDangling oldTree :=
  noDangling_of_entries (by decide)

def fourCalls : List Invocation :=
  [⟨["20250101".toList], "20250102".toList⟩, ⟨["20250101".toList], "20250102".toList⟩,
    ⟨["20240229".toList], "20250102".toList⟩, ⟨[], "20250102".toList⟩]

theorem history_invariant_fourCalls :
    addedStems gregorian asciiGraphemes fourCalls oldTree = ["20250101".toList, "20250102".toList] ∧
    addedFiles gregorian asciiGraphemes fourCalls oldTree =
      (addedStems gregorian asciiGraphemes fourCalls oldTree).map entryPath :=
  ⟨by decide +kernel, (history_invariant gregorian asciiGraphemes oldTree_noDangling fourCalls).2.1⟩

end ChangelogCreator
