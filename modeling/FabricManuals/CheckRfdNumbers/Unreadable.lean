import FabricManuals.CheckRfdNumbers.Relocation
import FabricManuals.Lib.Emptied

/-! # Files the gate cannot read

The tree with empty files in place of what does not open or decode is the measure:
what the gate says of the other files is to be said on the tree itself. -/
set_option autoImplicit false

namespace CheckRfdNumbers

open TextFile Backtrack FileTree OrderedDict PosixPath Attempts

/-- The places that the gate opens as files whatever is there. -/
def expectsFile : Path → Bool
  | [f] => f = aliasesMd
  | [top, d, f] => top = rfd ∧ f = "index.md".toList ∧ (first DIR_RE [] d).isSome
  | _ => false

/-- A directory in a file's place, bytes that are not UTF-8, or a file that does not open. -/
def badEntry (p : Path) : Entry → Bool
  | .dir => expectsFile p
  | .file bytes => (decode bytes).isNone
  | .denied => true
  | .dangling => true

def Checkout.emptied (c : Checkout) : Checkout := { c with tree := c.tree.emptied badEntry }

@[simp] theorem Checkout.emptied_root (c : Checkout) : c.emptied.root = c.root := rfl

@[simp] theorem Checkout.emptied_me (c : Checkout) : c.emptied.me = c.me := rfl

def Problem.About (root : Path) (p : Path) : Problem → Prop
  | .noIndex d | .noField d | .fieldDiffers d _ _ | .noTitle d | .titleDiffers d _ _ => p = indexOf d
  | .oldCitation q _ | .brokenLink q _ => q = root ++ p
  | .noAliases | .noRow _ => p = [aliasesMd]
  | .noRfdDirectory | .noDirectories | .badName _ | .badOrg _ _ | .serialUsed _ _ _ => False

/-- The problem is about a file that is replaced. -/
def Excepted (c : Checkout) (problem : Problem) : Prop :=
  ∃ p e, (p, e) ∈ c.tree.entries ∧ badEntry p e = true ∧ problem.About c.root p

/-- The gate gives a list, and the list has what is wrong with the files that can be read. -/
def ReportsTheRest (U : Unicode) (c : Checkout) : Prop :=
  ∃ ps ps', check U c = .ok ps ∧ check U c.emptied = .ok ps' ∧
    ∀ problem ∈ ps', ¬ Excepted c problem → problem ∈ ps

/-! ## The emptied tree -/

theorem not_lost_short {t : Tree} {p : Path} (h : ∀ q, q ≠ [] → q <+: p → q ≠ p → expectsFile q = false) :
    ¬ t.Lost badEntry p := by
  rintro ⟨⟨q, e⟩, hmem, hdir, hbad, hpre, hne⟩
  obtain rfl : e = .dir := hdir
  rw [show badEntry q .dir = expectsFile q from rfl, h q (t.plain _ hmem).1 hpre hne] at hbad
  cases hbad

theorem prefix_pair {α : Type} {a b : α} {q : List α} (hq : q ≠ []) (hpre : q <+: [a, b])
    (hne : q ≠ [a, b]) : q = [a] := by
  obtain ⟨x, rest, rfl⟩ := List.exists_cons_of_ne_nil hq
  obtain ⟨rfl, hrest⟩ := List.cons_prefix_cons.mp hpre
  rcases List.prefix_cons_iff.mp hrest with rfl | ⟨rest', rfl, hnil⟩
  · rfl
  · rw [List.prefix_nil.mp hnil] at hne
    exact absurd rfl hne

theorem not_lost_folder (t : Tree) (d : Name) : ¬ t.Lost badEntry [rfd, d] :=
  not_lost_short fun q hq hpre hne => by
    rw [prefix_pair hq hpre hne]
    decide

theorem not_lost_top (t : Tree) (f : Name) : ¬ t.Lost badEntry [f] :=
  not_lost_short fun q hq hpre hne => by
    obtain ⟨x, rest, rfl⟩ := List.exists_cons_of_ne_nil hq
    obtain ⟨rfl, hrest⟩ := List.cons_prefix_cons.mp hpre
    rw [List.prefix_nil.mp hrest] at hne
    exact absurd rfl hne

theorem not_lost_index (t : Tree) (d : Name) : ¬ t.Lost badEntry (indexOf d) :=
  not_lost_short fun q hq hpre hne => by
    rcases List.prefix_concat_iff.mp (show q <+: [rfd, d] ++ ["index.md".toList] from hpre) with h | h
    · exact absurd h hne
    · by_cases hpair : q = [rfd, d]
      · rw [hpair]
        rfl
      · rw [prefix_pair hq h hpair]
        decide

theorem isdir_emptied_rfd (t : Tree) : (t.emptied badEntry).isdir [rfd] = t.isdir [rfd] :=
  isdir_emptied badEntry (by simp) (not_lost_top t rfd) (by decide)

theorem isdir_emptied_folder (t : Tree) (d : Name) :
    (t.emptied badEntry).isdir [rfd, d] = t.isdir [rfd, d] :=
  isdir_emptied badEntry (by simp) (not_lost_folder t d) rfl

theorem candidates_emptied (t : Tree) : candidates (t.emptied badEntry) = candidates t := by
  rw [candidates, candidates, listdir_emptied badEntry fun d => not_lost_folder t d]
  simp only [isdir_emptied_folder]

theorem emptied_decodes {t : Tree} {p : Path} {e : Entry} (h : (p, e) ∈ (t.emptied badEntry).entries) :
    (e = .dir ∧ expectsFile p = false) ∨ ∃ bytes text, e = .file bytes ∧ decode bytes = some text := by
  obtain ⟨-, e', hmem, rfl⟩ := (mem_emptied badEntry).mp h
  by_cases hbad : badEntry p e' = true
  · rw [mended, if_pos hbad]
    exact Or.inr ⟨[], [], rfl, by decide⟩
  · rw [mended, if_neg hbad]
    cases e' with
    | dir => exact Or.inl ⟨rfl, by simpa [badEntry] using hbad⟩
    | file bytes =>
        cases hdecode : decode bytes with
        | none => exact absurd (by simp [badEntry, hdecode]) hbad
        | some text => exact Or.inr ⟨bytes, text, rfl, hdecode⟩
    | denied => exact absurd rfl hbad
    | dangling => exact absurd rfl hbad

theorem entry_of_exists {t : Tree} {p : Path} (hp : p ≠ []) (h : t.exists p = true) :
    ∃ e, (p, e) ∈ t.entries := by
  cases hfind : t.find? p with
  | none => simp [Tree.exists, hfind] at h
  | some e => exact ⟨e, (find?_eq_some_iff t hp e).mp hfind⟩

theorem expectsFile_indexOf {d : Name} : expectsFile (indexOf d) = (first DIR_RE [] d).isSome := by
  simp [expectsFile, indexOf]

theorem not_raises_emptied (t : Tree) : ¬ Raises (t.emptied badEntry) := by
  rintro (⟨d, -, hname, hex, hbad⟩ | ⟨cur, f, e, -, hmem, hne, -, hbad⟩ | ⟨hex, hbad⟩)
  · obtain ⟨e, hmem⟩ := entry_of_exists (by simp [indexOf]) hex
    rcases emptied_decodes hmem with ⟨-, hexpects⟩ | ⟨bytes, text, rfl, -⟩
    · rw [expectsFile_indexOf, hname] at hexpects
      cases hexpects
    · exact hbad bytes ((find?_eq_some_iff _ (by simp [indexOf]) _).mpr hmem)
  · rcases emptied_decodes hmem with ⟨rfl, -⟩ | ⟨bytes, text, rfl, -⟩
    · exact hne rfl
    · exact hbad bytes ((find?_eq_some_iff _ (by simp) _).mpr hmem)
  · obtain ⟨e, hmem⟩ := entry_of_exists (by simp) hex
    rcases emptied_decodes hmem with ⟨-, hexpects⟩ | ⟨bytes, text, rfl, hdecode⟩
    · exact absurd hexpects (by decide)
    · exact hbad bytes text ((find?_eq_some_iff _ (by simp) _).mpr hmem) hdecode

theorem check_ok_iff (U : Unicode) (c : Checkout) :
    (∃ ps, check U c = .ok ps) ↔ c.tree.isdir [rfd] = false ∨ ¬ Raises c.tree := by
  have hfails : ¬ Fails (check U c) ↔ c.tree.isdir [rfd] = false ∨ ¬ Raises c.tree := by
    rw [check_fails, not_and_or, Bool.not_eq_true]
  rw [← hfails]
  cases check U c with
  | ok ps => exact ⟨fun _ => not_fails_ok ps, fun _ => ⟨ps, rfl⟩⟩
  | error e => exact ⟨fun ⟨_, hps⟩ => (by cases hps), fun hquiet => absurd ⟨e, rfl⟩ hquiet⟩

theorem find?_emptied_of_good {t : Tree} {p : Path} (hp : p ≠ []) (hlost : ¬ t.Lost badEntry p)
    (hgood : ∀ e, (p, e) ∈ t.entries → badEntry p e = false) :
    (t.emptied badEntry).find? p = t.find? p := by
  rw [find?_emptied badEntry hp hlost]
  cases hfind : t.find? p with
  | none => rfl
  | some e =>
      rw [Option.map_some, mended, if_neg]
      rw [hgood e ((find?_eq_some_iff t hp e).mp hfind)]
      exact Bool.false_ne_true

theorem reads_eq {t t' : Tree} {p : Path} (h : t'.find? p = t.find? p) :
    t'.exists p = t.exists p ∧ readIgnore t' p = readIgnore t p ∧ readStrict t' p = readStrict t p := by
  have hread : t'.read p = t.read p := by rw [Tree.read, Tree.read, h]
  refine ⟨by rw [Tree.exists, Tree.exists, h], by rw [readIgnore, readIgnore, hread], ?_⟩
  rw [readStrict, readStrict, hread]

/-! ## The directory names -/

def indexProblems (t : Tree) (d : Name) (num : Str) : Except PyError (List Problem) :=
  if t.exists (indexOf d) = false then .ok [.noIndex d]
  else
    match readIgnore t (indexOf d) with
    | .error e => .error e
    | .ok body =>
      .ok (compareField FM_RE (.noField d) (fun found => .fieldDiffers d found num) num body ++
        compareField TITLE_RE (.noTitle d) (fun found => .titleDiffers d found num) num body)

def nameProblems (seen : Dict Str Name) (d : Name) (num : Str) : List Problem :=
  (if num.take 1 ≠ [ORG] then [Problem.badOrg d (num.take 1)] else []) ++
    match seen.get? num with
    | some by' => [Problem.serialUsed d num by']
    | none => []

theorem checkDir_eq (t : Tree) (st : Numbering) {d : Name} {m : Cursor Char}
    (hm : first DIR_RE [] d = some m) :
    checkDir t st d = (indexProblems t d (groupOf m)).map fun page =>
      ⟨st.problems ++ nameProblems st.seen d (groupOf m) ++ page, st.seen.set (groupOf m) d⟩ := by
  unfold checkDir indexProblems nameProblems
  rw [hm]
  cases hseen : st.seen.get? (groupOf m) <;> by_cases hex : t.exists (indexOf d) = false
  · simp [hseen, hex, Except.map]
  · cases readIgnore t (indexOf d) <;> simp [hseen, hex, Except.map]
  · simp [hseen, hex, Except.map]
  · cases readIgnore t (indexOf d) <;> simp [hseen, hex, Except.map]

theorem compareField_about {re : Regex Char} {missing : Problem} {differs : Str → Problem}
    {num body : Str} {root p : Path} (hmissing : missing.About root p)
    (hdiffers : ∀ found, (differs found).About root p) :
    ∀ problem ∈ compareField re missing differs num body, problem.About root p := by
  intro problem hproblem
  unfold compareField at hproblem
  split at hproblem
  · rwa [List.mem_singleton.mp hproblem]
  · split at hproblem
    · rw [List.mem_singleton.mp hproblem]
      exact hdiffers _
    · cases hproblem

theorem indexProblems_about {t : Tree} {d : Name} {num : Str} {page : List Problem} {root : Path}
    (h : indexProblems t d num = .ok page) : ∀ problem ∈ page, problem.About root (indexOf d) := by
  unfold indexProblems at h
  split at h
  · rw [← Except.ok.inj h]
    intro problem hproblem
    rw [List.mem_singleton.mp hproblem]
    rfl
  · split at h
    · cases h
    · rw [← Except.ok.inj h]
      intro problem hproblem
      rcases List.mem_append.mp hproblem with hproblem | hproblem
      · have hmissing : (Problem.noField d).About root (indexOf d) := rfl
        have hdiffers : ∀ found, (Problem.fieldDiffers d found num).About root (indexOf d) := fun _ => rfl
        exact compareField_about hmissing hdiffers problem hproblem
      · have hmissing : (Problem.noTitle d).About root (indexOf d) := rfl
        have hdiffers : ∀ found, (Problem.titleDiffers d found num).About root (indexOf d) := fun _ => rfl
        exact compareField_about hmissing hdiffers problem hproblem

def Covers (c : Checkout) (ps ps' : List Problem) : Prop :=
  ∀ problem ∈ ps', ¬ Excepted c problem → problem ∈ ps

theorem Covers.append {c : Checkout} {ps ps' qs qs' : List Problem} (hp : Covers c ps ps')
    (hq : Covers c qs qs') : Covers c (ps ++ qs) (ps' ++ qs') := by
  intro problem hproblem hexcepted
  rcases List.mem_append.mp hproblem with hproblem | hproblem
  · exact List.mem_append_left _ (hp problem hproblem hexcepted)
  · exact List.mem_append_right _ (hq problem hproblem hexcepted)

theorem Covers.refl (c : Checkout) (ps : List Problem) : Covers c ps ps := fun _ h _ => h

/-- A part of the run that looks at one file: where it is not bad it says the same, and
where it is bad all it says is excepted. -/
theorem covers_of_file (run : Tree → Except PyError (List Problem)) {c : Checkout} {p : Path}
    {ps ps' : List Problem} (hp : p ≠ []) (hlost : ¬ c.tree.Lost badEntry p)
    (hreads : ∀ t t' : Tree, t'.find? p = t.find? p → run t' = run t)
    (habout : ∀ problem ∈ ps', problem.About c.root p) (hps : run c.tree = .ok ps)
    (hps' : run c.emptied.tree = .ok ps') : Covers c ps ps' := by
  by_cases hgood : ∀ e, (p, e) ∈ c.tree.entries → badEntry p e = false
  · rw [hreads c.tree c.emptied.tree (find?_emptied_of_good hp hlost hgood), hps] at hps'
    rw [Except.ok.inj hps']
    exact fun problem hproblem _ => hproblem
  · push Not at hgood
    obtain ⟨e, hmem, hbad⟩ := hgood
    exact fun problem hproblem hexcepted =>
      absurd ⟨p, e, hmem, by simpa using hbad, habout problem hproblem⟩ hexcepted

theorem covers_indexProblems {c : Checkout} {d : Name} {num : Str} {page page' : List Problem}
    (hpage : indexProblems c.tree d num = .ok page)
    (hpage' : indexProblems c.emptied.tree d num = .ok page') : Covers c page page' := by
  refine covers_of_file (indexProblems · d num) (by simp [indexOf]) (not_lost_index c.tree d) ?_
    (indexProblems_about hpage') hpage hpage'
  intro t t' hfind
  obtain ⟨hexists, hread, -⟩ := reads_eq hfind
  rw [indexProblems, indexProblems, hexists, hread]

theorem covers_checkDir {c : Checkout} {st st' next next' : Numbering} {d : Name}
    (hseen : st'.seen = st.seen) (hst : Covers c st.problems st'.problems)
    (hnext : checkDir c.tree st d = .ok next) (hnext' : checkDir c.emptied.tree st' d = .ok next') :
    next'.seen = next.seen ∧ Covers c next.problems next'.problems := by
  cases hm : first DIR_RE [] d with
  | none =>
      unfold checkDir at hnext hnext'
      rw [hm] at hnext hnext'
      rw [← Except.ok.inj hnext, ← Except.ok.inj hnext']
      exact ⟨hseen, hst.append (Covers.refl c _)⟩
  | some m =>
      rw [checkDir_eq _ _ hm] at hnext hnext'
      cases hpage : indexProblems c.tree d (groupOf m) with
      | error e =>
          rw [hpage] at hnext
          cases hnext
      | ok page =>
          cases hpage' : indexProblems c.emptied.tree d (groupOf m) with
          | error e =>
              rw [hpage'] at hnext'
              cases hnext'
          | ok page' =>
              rw [hpage] at hnext
              rw [hpage', hseen] at hnext'
              rw [← Except.ok.inj hnext, ← Except.ok.inj hnext']
              exact ⟨rfl, (hst.append (Covers.refl c _)).append (covers_indexProblems hpage hpage')⟩

theorem covers_foldlM {c : Checkout} {dirs : List Name} {st st' last last' : Numbering}
    (hseen : st'.seen = st.seen) (hst : Covers c st.problems st'.problems)
    (hlast : dirs.foldlM (checkDir c.tree) st = .ok last)
    (hlast' : dirs.foldlM (checkDir c.emptied.tree) st' = .ok last') :
    last'.seen = last.seen ∧ Covers c last.problems last'.problems := by
  induction dirs generalizing st st' with
  | nil =>
      obtain rfl := Except.ok.inj (show Except.ok st = Except.ok last from hlast)
      obtain rfl := Except.ok.inj (show Except.ok st' = Except.ok last' from hlast')
      exact ⟨hseen, hst⟩
  | cons d rest ih =>
      rw [List.foldlM_cons, bind_eq_ok] at hlast hlast'
      obtain ⟨next, hnext, hrest⟩ := hlast
      obtain ⟨next', hnext', hrest'⟩ := hlast'
      obtain ⟨hseenNext, hcovers⟩ := covers_checkDir hseen hst hnext hnext'
      exact ih hseenNext hcovers hrest hrest'

/-! ## The walks and the alias table -/

theorem file_of_emptied {t : Tree} {p : Path} {bytes : List UInt8}
    (h : (p, Entry.file bytes) ∈ (t.emptied badEntry).entries) (hne : bytes ≠ []) :
    (p, Entry.file bytes) ∈ t.entries := by
  obtain ⟨-, e, hmem, he⟩ := (mem_emptied badEntry).mp h
  by_cases hbad : badEntry p e = true
  · rw [mended, if_pos hbad] at he
    exact absurd (Entry.file.inj he).symm hne
  · rw [mended, if_neg hbad] at he
    rwa [← he]

theorem read_emptied {t : Tree} {cur : Path} {f : Name} {body : Str}
    (h : readIgnore (t.emptied badEntry) (cur ++ [f]) = .ok body) (hne : body ≠ []) :
    readIgnore t (cur ++ [f]) = .ok body ∧ ∃ bytes, (cur ++ [f], Entry.file bytes) ∈ t.entries := by
  obtain ⟨bytes, hread, rfl⟩ := (readIgnore_eq_ok ..).mp h
  have hmem := (find?_file _).mp ((read_eq_ok_iff ..).mp hread)
  have hbytes : bytes ≠ [] := fun hnil => hne (by rw [hnil]; decide)
  have hfile := file_of_emptied hmem hbytes
  refine ⟨(readIgnore_eq_ok ..).mpr ⟨bytes, (read_eq_ok_iff ..).mpr ?_, rfl⟩, bytes, hfile⟩
  exact (find?_file t).mpr hfile

theorem citeFile_emptied {U : Unicode} {c : Checkout} {cur : Path} {f : Name} {problem : Problem}
    (h : problem ∈ citeFile U c.emptied cur f) :
    problem ∈ citeFile U c cur f ∧ ∃ bytes, (cur ++ [f], Entry.file bytes) ∈ c.tree.entries := by
  unfold citeFile at h
  rw [Checkout.emptied_root, Checkout.emptied_me] at h
  by_cases hskip : f = aliasesMd ∨ c.root ++ (cur ++ [f]) = c.me
  · rw [if_pos hskip] at h
    cases h
  · rw [if_neg hskip] at h
    cases hread : readIgnore c.emptied.tree (cur ++ [f]) with
    | error e =>
        rw [hread] at h
        cases h
    | ok body =>
        rw [hread] at h
        obtain ⟨num, hnum, -⟩ := List.mem_map.mp h
        have hne : body ≠ [] := by
          rintro rfl
          obtain ⟨pre, post, hempty, -⟩ := (mem_findall_oldCiteRe U [] num).mp hnum
          simp at hempty
        obtain ⟨hread', hfile⟩ := read_emptied hread hne
        refine ⟨?_, hfile⟩
        unfold citeFile
        rw [if_neg hskip, hread']
        exact h

theorem citePass_emptied {U : Unicode} {c : Checkout} {problem : Problem}
    (h : problem ∈ citePass U c.emptied) : problem ∈ citePass U c := by
  obtain ⟨⟨cur, files'⟩, hcur', hproblem⟩ := List.mem_flatMap.mp h
  by_cases hskip : skipped (c.emptied.root ++ cur) = true
  · simp only [hskip, if_true] at hproblem
    cases hproblem
  · simp only [hskip] at hproblem
    rw [Checkout.emptied_root] at hskip
    obtain ⟨f, -, hcite⟩ := List.mem_flatMap.mp hproblem
    obtain ⟨hcite', bytes, hfile⟩ := citeFile_emptied hcite
    obtain ⟨files, hcur, hf⟩ := (mem_walk c.tree [] cur f).mpr
      ⟨List.nil_prefix, by simp [Tree.isdir, Tree.find?], .file bytes, hfile, by simp⟩
    refine List.mem_flatMap.mpr ⟨(cur, files), hcur, ?_⟩
    simp only [hskip]
    exact List.mem_flatMap.mpr ⟨f, hf, hcite'⟩

theorem mem_collect {α : Type} {f : α → Except PyError (List Problem)} {l : List α}
    {ps : List Problem} (h : collect f l = .ok ps) (problem : Problem) :
    problem ∈ ps ↔ ∃ a ∈ l, ∃ here, f a = .ok here ∧ problem ∈ here := by
  rw [collect_eq_flatMap h, List.mem_flatMap]
  refine exists_congr fun a => and_congr_right fun _ => ?_
  rw [yielded]
  cases f a with
  | error e => simp
  | ok here => simp

theorem linkFile_emptied {c : Checkout} {cur : Path} {f : Name} {here : List Problem}
    (h : linkFile c.emptied cur f = .ok here) {problem : Problem} (hproblem : problem ∈ here) :
    linkFile c cur f = .ok here ∧ ∃ bytes, (cur ++ [f], Entry.file bytes) ∈ c.tree.entries := by
  unfold linkFile at h
  by_cases hmd : ".md".toList.isSuffixOf f = true
  · rw [if_pos hmd] at h
    cases hread : readIgnore c.emptied.tree (cur ++ [f]) with
    | error e =>
        rw [hread] at h
        cases h
    | ok body =>
        rw [hread] at h
        obtain rfl := Except.ok.inj h
        obtain ⟨name, hname, -⟩ := List.mem_map.mp hproblem
        have hne : body ≠ [] := by
          rintro rfl
          obtain ⟨-, pre, post, hempty⟩ := (mem_findall_linkRe [] name).mp (List.mem_filter.mp hname).1
          simp at hempty
        obtain ⟨hread', hfile⟩ := read_emptied hread hne
        refine ⟨?_, hfile⟩
        unfold linkFile
        rw [if_pos hmd, hread']
        simp only [Checkout.emptied, isdir_emptied_folder]
  · rw [if_neg hmd] at h
    rw [← Except.ok.inj h] at hproblem
    cases hproblem

theorem linkPass_emptied {c : Checkout} {links links' : List Problem} (hrfd : c.tree.isdir [rfd] = true)
    (hlinks : linkPass c = .ok links) (hlinks' : linkPass c.emptied = .ok links') {problem : Problem}
    (h : problem ∈ links') : problem ∈ links := by
  obtain ⟨⟨cur, f⟩, hmem, here, hhere, hproblem⟩ := (mem_collect hlinks' problem).mp h
  obtain ⟨hsame, bytes, hfile⟩ := linkFile_emptied hhere hproblem
  obtain ⟨⟨_, files'⟩, hwalk, hmap⟩ := List.mem_flatMap.mp hmem
  obtain ⟨f', hf', heq⟩ := List.mem_map.mp hmap
  obtain ⟨rfl, rfl⟩ := Prod.mk.inj heq
  obtain ⟨hpre, -, -⟩ := (mem_walk c.emptied.tree [rfd] _ _).mp ⟨files', hwalk, hf'⟩
  obtain ⟨files, hcur, hf⟩ := (mem_walk c.tree [rfd] _ _).mpr ⟨hpre, hrfd, .file bytes, hfile, by simp⟩
  refine (mem_collect hlinks problem).mpr ⟨_, List.mem_flatMap.mpr ⟨_, hcur, ?_⟩, here, hsame, hproblem⟩
  exact List.mem_map_of_mem hf

theorem aliasPass_about {t : Tree} {seen : Dict Str Name} {rows : List Problem} {root : Path}
    (h : aliasPass t seen = .ok rows) : ∀ problem ∈ rows, problem.About root [aliasesMd] := by
  unfold aliasPass at h
  split at h
  · rw [← Except.ok.inj h]
    intro problem hproblem
    rw [List.mem_singleton.mp hproblem]
    rfl
  · obtain ⟨text, -, hrows⟩ := bind_eq_ok.mp h
    rw [← Except.ok.inj hrows]
    intro problem hproblem
    obtain ⟨num, -, rfl⟩ := List.mem_map.mp hproblem
    rfl

theorem covers_aliasPass {c : Checkout} {seen : Dict Str Name} {rows rows' : List Problem}
    (hrows : aliasPass c.tree seen = .ok rows) (hrows' : aliasPass c.emptied.tree seen = .ok rows') :
    Covers c rows rows' := by
  refine covers_of_file (aliasPass · seen) (by simp) (not_lost_top c.tree aliasesMd) ?_
    (aliasPass_about hrows') hrows hrows'
  intro t t' hfind
  obtain ⟨hexists, -, hread⟩ := reads_eq hfind
  unfold aliasPass
  rw [hexists, hread]

/-- The gate reports exactly where nothing that it opens unguarded fails to open or decode. -/
theorem reports_the_rest_iff (U : Unicode) (c : Checkout) :
    ReportsTheRest U c ↔ c.tree.isdir [rfd] = false ∨ ¬ Raises c.tree := by
  constructor
  · rintro ⟨ps, -, hps, -⟩
    exact (check_ok_iff U c).mp ⟨ps, hps⟩
  · intro hcase
    by_cases hrfd : c.tree.isdir [rfd] = false
    · have hrfd' : c.emptied.tree.isdir [rfd] = false := (isdir_emptied_rfd c.tree).trans hrfd
      refine ⟨[.noRfdDirectory], [.noRfdDirectory], ?_, ?_, Covers.refl c _⟩
      · rw [check, if_pos hrfd]
      · rw [check, if_pos hrfd']
    · have hdir : c.tree.isdir [rfd] = true := by simpa using hrfd
      have hdir' : c.emptied.tree.isdir [rfd] = true := (isdir_emptied_rfd c.tree).trans hdir
      obtain ⟨ps, hps⟩ := (check_ok_iff U c).mpr hcase
      obtain ⟨ps', hps'⟩ := (check_ok_iff U c.emptied).mpr (Or.inr (not_raises_emptied c.tree))
      refine ⟨ps, ps', hps, hps', ?_⟩
      obtain ⟨st, links, rows, hst, hlinks, hrows, rfl⟩ := (check_eq_ok U c hdir ps).mp hps
      obtain ⟨st', links', rows', hst', hlinks', hrows', rfl⟩ := (check_eq_ok U c.emptied hdir' ps').mp hps'
      rw [show candidates c.emptied.tree = candidates c.tree from candidates_emptied c.tree] at hst'
      obtain ⟨hseen, hnames⟩ := covers_foldlM rfl (Covers.refl c _) hst hst'
      rw [hseen] at hrows'
      refine Covers.append (Covers.append (hnames.append ?_) ?_) (covers_aliasPass hrows hrows')
      · exact fun problem hproblem _ => citePass_emptied hproblem
      · exact fun problem hproblem _ => linkPass_emptied hdir hlinks hlinks' hproblem

def danglingTree : Tree where
  entries := [([rfd], .dir), ([rfd, "2001-a-slug".toList], .dir),
    (indexOf "2001-a-slug".toList, .file (ascii cleanIndex)),
    ([rfd, "2001-a-slug".toList, "note.md".toList], .dangling),
    ([aliasesMd], .file (ascii "| RFD 0001 | RFD 2001 |\n".toList))]
  nodup := by decide
  plain := by decide
  closed := by decide

theorem dangling_page_raises : ¬ ∀ (U : Unicode) (c : Checkout), ReportsTheRest U c := by
  intro h
  obtain ⟨ps, -, hps, -⟩ :=
    h .ascii ⟨["tmp".toList], ["check-rfd-numbers.py".toList], danglingTree⟩
  have hraises : Raises danglingTree :=
    Or.inr (Or.inl ⟨[rfd, "2001-a-slug".toList], "note.md".toList, .dangling, by decide, by decide,
      by decide, by decide, fun bytes hbytes => by cases hbytes⟩)
  exact not_fails_ok ps (hps ▸ (check_fails .ascii _).mpr ⟨by decide, hraises⟩)

end CheckRfdNumbers
