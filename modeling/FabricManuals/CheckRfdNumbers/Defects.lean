import FabricManuals.CheckRfdNumbers.Serials
import FabricManuals.CheckRfdNumbers.Soundness

/-! # Every message of the gate

What each problem says of the tree, stated without the passes.  A run that comes to a
list has in it the problems that hold of the tree, and no others. -/
set_option autoImplicit false

namespace CheckRfdNumbers

open TextFile Backtrack FileTree OrderedDict PosixPath Attempts

/-- A directory that counts as an RFD: four letters or digits and a dash. -/
structure Folder (t : Tree) (d : Name) : Prop where
  isdir : t.isdir [rfd, d] = true
  named : ∃ w rest, w.length = 4 ∧ (∀ c ∈ w, isAlnum c = true) ∧ d = w ++ '-' :: rest

def Lacks (field : Str → Option Str) (body : Str) : Prop := ∀ line ∈ lines body, field line = none

/-- The name is the serial, a dash and a slug; a newline may follow, as the pattern's `$`
stands before one. -/
def Bears (d : Name) (num : Str) : Prop :=
  IsNum num ∧ ∃ slug tail, IsSlugText slug ∧ d = num ++ '-' :: slug ++ tail ∧ (tail = [] ∨ tail = ['\n'])

/-- What is said of one directory, apart from its serial being in use. -/
def Says (t : Tree) (d : Name) : Problem → Prop
  | .badName d' => d' = d ∧ ∀ num, ¬ Bears d num
  | .badOrg d' digit => d' = d ∧ digit ≠ [ORG] ∧ ∃ num, Bears d num ∧ digit = num.take 1
  | .noIndex d' => d' = d ∧ (∃ num, Bears d num) ∧ t.exists (indexOf d) = false
  | .noField d' => d' = d ∧ (∃ num, Bears d num) ∧
    ∃ body, readIgnore t (indexOf d) = .ok body ∧ Lacks rfdField body
  | .fieldDiffers d' found num => d' = d ∧ Bears d num ∧ found ≠ num ∧
    ∃ body, readIgnore t (indexOf d) = .ok body ∧ FirstSays rfdField found (lines body)
  | .noTitle d' => d' = d ∧ (∃ num, Bears d num) ∧
    ∃ body, readIgnore t (indexOf d) = .ok body ∧ Lacks titleField body
  | .titleDiffers d' found num => d' = d ∧ Bears d num ∧ found ≠ num ∧
    ∃ body, readIgnore t (indexOf d) = .ok body ∧ FirstSays titleField found (lines body)
  | _ => False

/-- `by'` is the last folder before `d` that bears the serial. -/
structure UsedBefore (t : Tree) (num : Str) (d by' : Name) : Prop where
  bears : t.isdir [rfd, d] = true ∧ Bears d num
  bears_before : t.isdir [rfd, by'] = true ∧ Bears by' num
  before : by' < d
  between : ∀ e, t.isdir [rfd, e] = true → Bears e num → e ≤ by' ∨ d ≤ e

def Problem.Holds (U : Unicode) (c : Checkout) : Problem → Prop
  | .noRfdDirectory => c.tree.isdir [rfd] = false
  | .noDirectories => c.tree.isdir [rfd] = true ∧ ∀ d, ¬ Folder c.tree d
  | .serialUsed d num by' => UsedBefore c.tree num d by'
  | .oldCitation p num => c.tree.isdir [rfd] = true ∧
    ∃ cur f bytes, p = c.root ++ (cur ++ [f]) ∧ (cur ++ [f], Entry.file bytes) ∈ c.tree.entries ∧
      skipped (c.root ++ cur) = false ∧ f ≠ aliasesMd ∧ p ≠ c.me ∧ Cites U (decodeIgnore bytes) num
  | .brokenLink p target =>
    ∃ cur f bytes, p = c.root ++ (cur ++ [f]) ∧ (cur ++ [f], Entry.file bytes) ∈ c.tree.entries ∧
      [rfd] <+: cur ∧ ".md".toList <:+ f ∧ c.tree.isdir [rfd, target] = false ∧ IsFolderRef target ∧
      ∃ pre post, decodeIgnore bytes = pre ++ ("](../".toList ++ (target ++ '/' :: post))
  | .noAliases => c.tree.isdir [rfd] = true ∧ c.tree.exists [aliasesMd] = false
  | .noRow num => (∃ d, c.tree.isdir [rfd, d] = true ∧ Bears d num) ∧
    ∃ text, readStrict c.tree [aliasesMd] = .ok text ∧
      ¬ ∃ pre post, text = pre ++ ("RFD ".toList ++ (num ++ post))
  | problem => ∃ d, Folder c.tree d ∧ Says c.tree d problem

/-! ## The directories -/

theorem bears_iff (d : Name) (num : Str) : Bears d num ↔ serial d = some num :=
  (serial_eq_some_iff d num).symm

theorem folder_iff_mem_candidates (t : Tree) (d : Name) : Folder t d ↔ d ∈ candidates t := by
  rw [mem_candidates, candidateRe_isSome_iff]
  exact ⟨fun h => ⟨h.isdir, h.named⟩, fun h => ⟨h.1, h.2⟩⟩

theorem mem_compareField {re : Regex Char} {missing : Problem} {differs : Str → Problem} {num body : Str}
    {problem : Problem} :
    problem ∈ compareField re missing differs num body ↔
      (problem = missing ∧ (search re body).map groupOf = none) ∨
        ∃ found, problem = differs found ∧ (search re body).map groupOf = some found ∧ found ≠ num := by
  unfold compareField
  cases hsearch : search re body with
  | none => simp
  | some m =>
      by_cases hnum : groupOf m = num
      · simp [hnum]
      · simp [hnum]

theorem lacks_iff {field : Str → Option Str} {body : Str} :
    ((lines body).filterMap field).head? = none ↔ Lacks field body := by
  rw [List.head?_eq_none_iff, List.filterMap_eq_nil_iff]
  rfl

theorem mem_headers {d : Name} {num body : Str} {problem : Problem} :
    problem ∈ compareField FM_RE (.noField d) (fun found => .fieldDiffers d found num) num body ++
        compareField TITLE_RE (.noTitle d) (fun found => .titleDiffers d found num) num body ↔
      (problem = .noField d ∧ Lacks rfdField body) ∨
      (∃ found, problem = .fieldDiffers d found num ∧ FirstSays rfdField found (lines body) ∧ found ≠ num) ∨
      (problem = .noTitle d ∧ Lacks titleField body) ∨
      (∃ found, problem = .titleDiffers d found num ∧ FirstSays titleField found (lines body) ∧
        found ≠ num) := by
  rw [List.mem_append, mem_compareField, mem_compareField, search_FM_RE, search_TITLE_RE, lacks_iff,
    lacks_iff, or_assoc]
  rfl

theorem exists_of_readIgnore {t : Tree} {p : Path} {body : Str} (h : readIgnore t p = .ok body) :
    t.exists p = true := by
  obtain ⟨bytes, hread, -⟩ := (readIgnore_eq_ok ..).mp h
  rw [Tree.exists, (read_eq_ok_iff ..).mp hread]

theorem mem_indexProblems {t : Tree} {d : Name} {num : Str} {page : List Problem}
    (hserial : serial d = some num) (hpage : indexProblems t d num = .ok page) (problem : Problem) :
    problem ∈ page ↔ Says t d problem ∧ ∀ d' digit, problem ≠ .badOrg d' digit := by
  unfold indexProblems at hpage
  by_cases hex : t.exists (indexOf d) = false
  · rw [if_pos hex] at hpage
    obtain rfl := Except.ok.inj hpage
    have hclosed : ∀ body, readIgnore t (indexOf d) ≠ .ok body := by
      intro body hread
      rw [exists_of_readIgnore hread] at hex
      cases hex
    cases problem <;> simp [Says, bears_iff, hserial, hex, hclosed]
  · rw [if_neg hex] at hpage
    cases hread : readIgnore t (indexOf d) with
    | error e =>
        rw [hread] at hpage
        cases hpage
    | ok body =>
        rw [hread] at hpage
        obtain rfl := Except.ok.inj hpage
        rw [mem_headers]
        cases problem with
        | fieldDiffers d' found num' =>
            simp only [Says, bears_iff, hserial, hread]
            grind
        | titleDiffers d' found num' =>
            simp only [Says, bears_iff, hserial, hread]
            grind
        | _ => simp [Says, bears_iff, hserial, hex, hread, and_comm, eq_comm]

theorem mem_nameProblems {t : Tree} {seen : Dict Str Name} {d : Name} {num : Str}
    (hserial : serial d = some num) {problem : Problem}
    (hproblem : ∀ d' num' by', problem ≠ .serialUsed d' num' by') :
    problem ∈ nameProblems seen d num ↔ Says t d problem ∧ ∃ d' digit, problem = .badOrg d' digit := by
  have hname : problem ∈ nameProblems seen d num ↔
      problem ∈ if num.take 1 ≠ [ORG] then [Problem.badOrg d (num.take 1)] else [] := by
    rw [nameProblems, List.mem_append]
    cases seen.get? num with
    | none => simp
    | some by' => simp [hproblem d num by']
  rw [hname]
  split
  · next horg =>
      rw [List.mem_singleton]
      cases problem with
      | badOrg d' digit =>
          simp only [Says, bears_iff, hserial]
          grind
      | _ => simp
  · next horg =>
      cases problem with
      | badOrg d' digit =>
          simp only [Says, bears_iff, hserial]
          grind
      | _ => simp

theorem mem_checkDir {t : Tree} {st st' : Numbering} {d : Name} (h : checkDir t st d = .ok st')
    {problem : Problem} (hproblem : ∀ d' num by', problem ≠ .serialUsed d' num by') :
    problem ∈ st'.problems ↔ problem ∈ st.problems ∨ Says t d problem := by
  cases hm : first DIR_RE [] d with
  | none =>
      have hserial : serial d = none := by rw [serial, hm]; rfl
      simp only [checkDir, hm] at h
      obtain rfl := Except.ok.inj h
      rw [List.mem_append, List.mem_singleton]
      cases problem <;> simp [Says, bears_iff, hserial]
  | some m =>
      have hserial : serial d = some (groupOf m) := by rw [serial, hm]; rfl
      rw [checkDir_eq t st hm] at h
      cases hpage : indexProblems t d (groupOf m) with
      | error e =>
          rw [hpage] at h
          cases h
      | ok page =>
          rw [hpage] at h
          obtain rfl := Except.ok.inj h
          rw [List.mem_append, List.mem_append, mem_nameProblems (t := t) hserial hproblem,
            mem_indexProblems hserial hpage]
          grind

theorem mem_foldlM_checkDir {t : Tree} {dirs : List Name} {problems : List Problem} {st : Numbering}
    (h : dirs.foldlM (checkDir t) ⟨problems, .empty⟩ = .ok st) {problem : Problem}
    (hproblem : ∀ d num by', problem ≠ .serialUsed d num by') :
    problem ∈ st.problems ↔ problem ∈ problems ∨ ∃ d ∈ dirs, Says t d problem := by
  let said : List Name → Numbering → Prop := fun done st =>
    problem ∈ st.problems ↔ problem ∈ problems ∨ ∃ d ∈ done, Says t d problem
  refine invariant_foldlM (I := said) (by simp [said]) ?_ h
  intro done d st st' hdone hround
  have hold : problem ∈ st.problems ↔ problem ∈ problems ∨ ∃ d ∈ done, Says t d problem := hdone
  show problem ∈ st'.problems ↔ _
  rw [mem_checkDir hround hproblem, hold]
  simp [or_and_right, exists_or, or_assoc]

/-! ## The walks -/

theorem exists_of_collect {α : Type} {f : α → Except PyError (List Problem)} {l : List α}
    {ps : List Problem} (h : collect f l = .ok ps) : ∀ a ∈ l, ∃ here, f a = .ok here := by
  intro a ha
  cases hf : f a with
  | ok here => exact ⟨here, rfl⟩
  | error e =>
      obtain ⟨e', he'⟩ := (collect_fails f l).mpr ⟨a, ha, e, hf⟩
      rw [h] at he'
      cases he'

theorem mem_citeFile {U : Unicode} {c : Checkout} {cur : Path} {f : Name} {problem : Problem} :
    problem ∈ citeFile U c cur f ↔ ∃ bytes num, problem = .oldCitation (c.root ++ (cur ++ [f])) num ∧
      (cur ++ [f], Entry.file bytes) ∈ c.tree.entries ∧ f ≠ aliasesMd ∧ c.root ++ (cur ++ [f]) ≠ c.me ∧
      Cites U (decodeIgnore bytes) num := by
  unfold citeFile
  by_cases hskip : f = aliasesMd ∨ c.root ++ (cur ++ [f]) = c.me
  · rw [if_pos hskip]
    constructor
    · exact fun h => absurd h List.not_mem_nil
    · rintro ⟨bytes, num, -, -, halias, hme, -⟩
      exact absurd hskip (not_or.mpr ⟨halias, hme⟩)
  · rw [if_neg hskip]
    rw [not_or] at hskip
    simp only [← find?_file, ← read_eq_ok_iff]
    constructor
    · intro h
      cases hread : readIgnore c.tree (cur ++ [f]) with
      | error e =>
          rw [hread] at h
          cases h
      | ok body =>
          rw [hread] at h
          obtain ⟨bytes, hbytes, rfl⟩ := (readIgnore_eq_ok ..).mp hread
          obtain ⟨num, hnum, rfl⟩ := List.mem_map.mp h
          exact ⟨bytes, num, rfl, hbytes, hskip.1, hskip.2, (mem_findall_oldCiteRe ..).mp hnum⟩
    · rintro ⟨bytes, num, rfl, hbytes, -, -, hcites⟩
      rw [(readIgnore_eq_ok ..).mpr ⟨bytes, hbytes, rfl⟩]
      exact List.mem_map_of_mem ((mem_findall_oldCiteRe ..).mpr hcites)

theorem mem_citePass {U : Unicode} {c : Checkout} {problem : Problem} :
    problem ∈ citePass U c ↔ ∃ cur f bytes num, problem = .oldCitation (c.root ++ (cur ++ [f])) num ∧
      (cur ++ [f], Entry.file bytes) ∈ c.tree.entries ∧ skipped (c.root ++ cur) = false ∧
      f ≠ aliasesMd ∧ c.root ++ (cur ++ [f]) ≠ c.me ∧ Cites U (decodeIgnore bytes) num := by
  rw [citePass, List.mem_flatMap]
  constructor
  · rintro ⟨⟨cur, files⟩, -, h⟩
    by_cases hskip : skipped (c.root ++ cur) = true
    · simp [hskip] at h
    · simp only [hskip, Bool.false_eq_true, if_false, List.mem_flatMap] at h
      obtain ⟨f, -, hf⟩ := h
      obtain ⟨bytes, num, hproblem, hentry, halias, hme, hcites⟩ := mem_citeFile.mp hf
      exact ⟨cur, f, bytes, num, hproblem, hentry, by simpa using hskip, halias, hme, hcites⟩
  · rintro ⟨cur, f, bytes, num, hproblem, hentry, hskip, halias, hme, hcites⟩
    obtain ⟨files, hcur, hf⟩ := (mem_walk c.tree [] cur f).mpr
      ⟨List.nil_prefix, by simp [Tree.isdir], .file bytes, hentry, by simp⟩
    refine ⟨(cur, files), hcur, ?_⟩
    simp only [hskip, Bool.false_eq_true, if_false, List.mem_flatMap]
    exact ⟨f, hf, mem_citeFile.mpr ⟨bytes, num, hproblem, hentry, halias, hme, hcites⟩⟩

theorem mem_linkFile {c : Checkout} {cur : Path} {f : Name} {here : List Problem}
    (h : linkFile c cur f = .ok here) {problem : Problem} :
    problem ∈ here ↔ ∃ bytes target, problem = .brokenLink (c.root ++ (cur ++ [f])) target ∧
      (cur ++ [f], Entry.file bytes) ∈ c.tree.entries ∧ ".md".toList <:+ f ∧
      c.tree.isdir [rfd, target] = false ∧ target ∈ findall linkRe (decodeIgnore bytes) := by
  unfold linkFile at h
  by_cases hmd : ".md".toList <:+ f
  · rw [if_pos (List.isSuffixOf_iff_suffix.mpr hmd)] at h
    cases hread : readIgnore c.tree (cur ++ [f]) with
    | error e =>
        rw [hread] at h
        cases h
    | ok body =>
        rw [hread] at h
        obtain rfl := Except.ok.inj h
        obtain ⟨bytes, hbytes, rfl⟩ := (readIgnore_eq_ok ..).mp hread
        have hentry := (find?_file _).mp ((read_eq_ok_iff ..).mp hbytes)
        rw [List.mem_map]
        constructor
        · rintro ⟨target, htarget, rfl⟩
          obtain ⟨hfound, hgone⟩ := List.mem_filter.mp htarget
          exact ⟨bytes, target, rfl, hentry, hmd, by simpa using hgone, hfound⟩
        · rintro ⟨bytes', target, rfl, hentry', -, hgone, hfound⟩
          have hbytes' := (read_eq_ok_iff ..).mpr ((find?_file _).mpr hentry')
          obtain rfl := Except.ok.inj (hbytes.symm.trans hbytes')
          exact ⟨target, List.mem_filter.mpr ⟨hfound, by simpa using hgone⟩, rfl⟩
  · rw [if_neg fun hsuffix => hmd (List.isSuffixOf_iff_suffix.mp hsuffix)] at h
    obtain rfl := Except.ok.inj h
    constructor
    · exact fun hmem => absurd hmem List.not_mem_nil
    · rintro ⟨bytes, target, -, -, hmd', -⟩
      exact absurd hmd' hmd

theorem mem_linkPass {c : Checkout} {links : List Problem} (hrfd : c.tree.isdir [rfd] = true)
    (h : linkPass c = .ok links) {problem : Problem} :
    problem ∈ links ↔ ∃ cur f bytes target, problem = .brokenLink (c.root ++ (cur ++ [f])) target ∧
      (cur ++ [f], Entry.file bytes) ∈ c.tree.entries ∧ [rfd] <+: cur ∧ ".md".toList <:+ f ∧
      c.tree.isdir [rfd, target] = false ∧ target ∈ findall linkRe (decodeIgnore bytes) := by
  rw [mem_collect h]
  constructor
  · rintro ⟨⟨cur, f⟩, hmem, here, hhere, hproblem⟩
    obtain ⟨⟨_, files⟩, hwalk, hmap⟩ := List.mem_flatMap.mp hmem
    obtain ⟨f', hf', heq⟩ := List.mem_map.mp hmap
    obtain ⟨rfl, rfl⟩ := Prod.mk.inj heq
    obtain ⟨hpre, -, -⟩ := (mem_walk c.tree [rfd] _ _).mp ⟨files, hwalk, hf'⟩
    obtain ⟨bytes, target, hproblem, hentry, hmd, hgone, hfound⟩ := (mem_linkFile hhere).mp hproblem
    exact ⟨_, _, bytes, target, hproblem, hentry, hpre, hmd, hgone, hfound⟩
  · rintro ⟨cur, f, bytes, target, hproblem, hentry, hpre, hmd, hgone, hfound⟩
    obtain ⟨files, hcur, hf⟩ := (mem_walk c.tree [rfd] cur f).mpr ⟨hpre, hrfd, .file bytes, hentry, by simp⟩
    have hmem : (cur, f) ∈ (c.tree.walk [rfd]).flatMap fun w => w.2.map fun f => (w.1, f) :=
      List.mem_flatMap.mpr ⟨(cur, files), hcur, List.mem_map_of_mem hf⟩
    obtain ⟨here, hhere⟩ := exists_of_collect h _ hmem
    exact ⟨(cur, f), hmem, here, hhere,
      (mem_linkFile hhere).mpr ⟨bytes, target, hproblem, hentry, hmd, hgone, hfound⟩⟩

theorem exists_of_readStrict {t : Tree} {p : Path} {text : Str} (h : readStrict t p = .ok text) :
    t.exists p = true := by
  obtain ⟨bytes, hread, -⟩ := (readStrict_eq_ok ..).mp h
  rw [Tree.exists, (read_eq_ok_iff ..).mp hread]

theorem mem_aliasPass {t : Tree} {seen : Dict Str Name} {rows : List Problem}
    (h : aliasPass t seen = .ok rows) {problem : Problem} :
    problem ∈ rows ↔ (problem = .noAliases ∧ t.exists [aliasesMd] = false) ∨
      ∃ num text, problem = .noRow num ∧ num ∈ sorted seen.keys ∧ readStrict t [aliasesMd] = .ok text ∧
        num ∉ findall aliasRe text := by
  unfold aliasPass at h
  by_cases hex : t.exists [aliasesMd] = false
  · rw [if_pos hex] at h
    obtain rfl := Except.ok.inj h
    have hclosed : ∀ text, readStrict t [aliasesMd] ≠ .ok text := by
      intro text hread
      rw [exists_of_readStrict hread] at hex
      cases hex
    simp [hex, hclosed]
  · rw [if_neg hex, bind_eq_ok] at h
    obtain ⟨text, hread, hrows⟩ := h
    obtain rfl := Except.ok.inj hrows
    rw [List.mem_map]
    constructor
    · rintro ⟨num, hnum, rfl⟩
      obtain ⟨hkey, hrow⟩ := List.mem_filter.mp hnum
      exact Or.inr ⟨num, text, rfl, hkey, hread, by simpa using hrow⟩
    · rintro (⟨-, hgone⟩ | ⟨num, text', rfl, hkey, hread', hrow⟩)
      · exact absurd hgone hex
      · obtain rfl := Except.ok.inj (hread.symm.trans hread')
        exact ⟨num, List.mem_filter.mpr ⟨hkey, by simpa using hrow⟩, rfl⟩

/-! ## The whole run -/

theorem mem_collisions {ps : List Problem} {num : Str} {d by' : Name} :
    (d, by') ∈ collisions num ps ↔ .serialUsed d num by' ∈ ps := by
  rw [collisions, List.mem_filterMap]
  constructor
  · rintro ⟨problem, hproblem, hsome⟩
    cases problem with
    | serialUsed d' num' by'' =>
        simp only [Option.ite_none_right_eq_some, Option.some_inj, Prod.mk.injEq] at hsome
        obtain ⟨rfl, rfl, rfl⟩ := hsome
        exact hproblem
    | _ => cases hsome
  · exact fun h => ⟨_, h, by simp⟩

theorem mem_successive_bearers {t : Tree} {num : Str} {d by' : Name} :
    (d, by') ∈ successive (bearers t num) ↔ UsedBefore t num d by' := by
  rw [mem_successive_iff (pairwise_bearers t num)]
  simp only [mem_bearers, ← bears_iff]
  constructor
  · rintro ⟨hd, hby, hlt, hbetween⟩
    exact ⟨hd, hby, hlt, fun e hdir hbears => hbetween e ⟨hdir, hbears⟩⟩
  · rintro ⟨hd, hby, hlt, hbetween⟩
    exact ⟨hd, hby, hlt, fun e he => hbetween e he.1 he.2⟩

theorem isdir_rfd {t : Tree} {d : Name} (h : t.isdir [rfd, d] = true) : t.isdir [rfd] = true := by
  exact isdir_of_below t (by simp) (by simp) ((isdir_iff t (by simp)).mp h)

theorem mem_seen_iff {t : Tree} {st : Numbering} (h : Counted (candidates t) st) (num : Str) :
    num ∈ sorted st.seen.keys ↔ ∃ d, t.isdir [rfd, d] = true ∧ Bears d num := by
  rw [mem_keys_iff h, bearing_candidates, ne_eq, List.eq_nil_iff_forall_not_mem, not_forall_not]
  simp only [mem_bearers, ← bears_iff]

theorem not_mem_findall_aliasRe {num text : Str} (hnum : IsNum num) :
    num ∉ findall aliasRe text ↔ ¬ ∃ pre post, text = pre ++ ("RFD ".toList ++ (num ++ post)) := by
  rw [mem_findall_aliasRe, not_and]
  exact ⟨fun h => h hnum, fun h _ => h⟩

/-- Where the passes put what they say, collisions apart. -/
theorem mem_check {U : Unicode} {c : Checkout} (hrfd : c.tree.isdir [rfd] = true) {ps : List Problem}
    (h : check U c = .ok ps) {problem : Problem} (hproblem : ∀ d num by', problem ≠ .serialUsed d num by') :
    problem ∈ ps ↔ (problem = .noDirectories ∧ ∀ d, ¬ Folder c.tree d) ∨
      (∃ d, Folder c.tree d ∧ Says c.tree d problem) ∨
      (∃ cur f bytes num, problem = .oldCitation (c.root ++ (cur ++ [f])) num ∧
        (cur ++ [f], Entry.file bytes) ∈ c.tree.entries ∧ skipped (c.root ++ cur) = false ∧
        f ≠ aliasesMd ∧ c.root ++ (cur ++ [f]) ≠ c.me ∧ Cites U (decodeIgnore bytes) num) ∨
      (∃ cur f bytes target, problem = .brokenLink (c.root ++ (cur ++ [f])) target ∧
        (cur ++ [f], Entry.file bytes) ∈ c.tree.entries ∧ [rfd] <+: cur ∧ ".md".toList <:+ f ∧
        c.tree.isdir [rfd, target] = false ∧ target ∈ findall linkRe (decodeIgnore bytes)) ∨
      (problem = .noAliases ∧ c.tree.exists [aliasesMd] = false) ∨
      ∃ num text, problem = .noRow num ∧ (∃ d, c.tree.isdir [rfd, d] = true ∧ Bears d num) ∧
        readStrict c.tree [aliasesMd] = .ok text ∧ num ∉ findall aliasRe text := by
  obtain ⟨st, links, rows, hst, hlinks, hrows, rfl⟩ := (check_eq_ok U c hrfd ps).mp h
  have hcounted := counted_foldlM (by intro num; split <;> rfl) hst
  have hstart : problem ∈ (if candidates c.tree = [] then [Problem.noDirectories] else []) ↔
      problem = .noDirectories ∧ ∀ d, ¬ Folder c.tree d := by
    simp only [folder_iff_mem_candidates, ← List.eq_nil_iff_forall_not_mem]
    split
    · next hnil => simp [hnil]
    · next hsome => simp [hsome]
  have hdirs : (∃ d ∈ candidates c.tree, Says c.tree d problem) ↔
      ∃ d, Folder c.tree d ∧ Says c.tree d problem := by
    simp only [folder_iff_mem_candidates]
  rw [List.mem_append, List.mem_append, List.mem_append, mem_foldlM_checkDir hst hproblem,
    mem_citePass, mem_linkPass hrfd hlinks, mem_aliasPass hrows, hstart, hdirs]
  simp only [mem_seen_iff hcounted, or_assoc]

theorem Problem.Holds.eq_noRfdDirectory {U : Unicode} {c : Checkout} (hrfd : c.tree.isdir [rfd] = false)
    {problem : Problem} (h : problem.Holds U c) : problem = .noRfdDirectory := by
  have hnone : ∀ d, c.tree.isdir [rfd, d] ≠ true := by
    intro d hdir
    rw [isdir_rfd hdir] at hrfd
    cases hrfd
  cases problem with
  | noRfdDirectory => rfl
  | noDirectories => exact absurd h.1 (by simp [hrfd])
  | serialUsed d num by' => exact absurd h.bears.1 (hnone d)
  | oldCitation p num => exact absurd h.1 (by simp [hrfd])
  | brokenLink p target =>
      obtain ⟨cur, f, bytes, -, hentry, ⟨rest, rfl⟩, -⟩ := h
      have hbelow : ([rfd] ++ (rest ++ [f]), Entry.file bytes) ∈ c.tree.entries := by
        simpa using hentry
      have hdir : c.tree.isdir [rfd] = true :=
        isdir_of_below c.tree (by simp) (by simp) hbelow
      exact absurd hdir (by simp [hrfd])
  | noAliases => exact absurd h.1 (by simp [hrfd])
  | noRow num =>
      obtain ⟨⟨d, hdir, -⟩, -⟩ := h
      exact absurd hdir (hnone d)
  | _ =>
      obtain ⟨d, hfolder, -⟩ := h
      exact absurd hfolder.isdir (hnone d)

theorem mem_iff_holds {U : Unicode} {c : Checkout} {ps : List Problem} (h : check U c = .ok ps)
    (problem : Problem) : problem ∈ ps ↔ problem.Holds U c := by
  by_cases hcollision : ∃ d num by', problem = .serialUsed d num by'
  · obtain ⟨d, num, by', rfl⟩ := hcollision
    rw [← mem_collisions, collisions_of_check h, mem_successive_bearers]
    rfl
  simp only [not_exists] at hcollision
  by_cases hrfd : c.tree.isdir [rfd] = true
  · rw [mem_check hrfd h hcollision]
    cases problem with
    | serialUsed d num by' => exact absurd rfl (hcollision d num by')
    | noRfdDirectory => simp [Problem.Holds, Says, hrfd]
    | noDirectories => simp [Problem.Holds, Says, hrfd]
    | oldCitation p num =>
        simp only [Problem.Holds, Says, hrfd, reduceCtorEq, Problem.oldCitation.injEq, and_false, false_and,
          exists_false, or_false, false_or, true_and]
        constructor
        · rintro ⟨cur, f, bytes, _, ⟨rfl, rfl⟩, hcited⟩
          exact ⟨cur, f, bytes, rfl, hcited⟩
        · rintro ⟨cur, f, bytes, rfl, hcited⟩
          exact ⟨cur, f, bytes, num, ⟨rfl, rfl⟩, hcited⟩
    | brokenLink p target =>
        simp only [Problem.Holds, Says, reduceCtorEq, Problem.brokenLink.injEq, and_false, false_and,
          exists_false, or_false, false_or, mem_findall_linkRe]
        constructor
        · rintro ⟨cur, f, bytes, _, ⟨rfl, rfl⟩, hlinked⟩
          exact ⟨cur, f, bytes, rfl, hlinked⟩
        · rintro ⟨cur, f, bytes, rfl, hlinked⟩
          exact ⟨cur, f, bytes, target, ⟨rfl, rfl⟩, hlinked⟩
    | noAliases => simp [Problem.Holds, Says, hrfd]
    | noRow num =>
        simp only [Problem.Holds, Says, reduceCtorEq, Problem.noRow.injEq, and_false, false_and,
          exists_false, false_or]
        constructor
        · rintro ⟨_, text, rfl, hbears, hread, hrow⟩
          obtain ⟨-, -, hnum, -⟩ := id hbears
          exact ⟨hbears, text, hread, (not_mem_findall_aliasRe hnum).mp hrow⟩
        · rintro ⟨hbears, text, hread, hrow⟩
          obtain ⟨-, -, hnum, -⟩ := id hbears
          exact ⟨num, text, rfl, hbears, hread, (not_mem_findall_aliasRe hnum).mpr hrow⟩
    | _ => simp [Problem.Holds]
  · rw [Bool.not_eq_true] at hrfd
    rw [check, if_pos hrfd] at h
    obtain rfl := Except.ok.inj h
    rw [List.mem_singleton]
    constructor
    · rintro rfl
      exact hrfd
    · exact Problem.Holds.eq_noRfdDirectory hrfd

/-- The list of the gate has exactly the problems that hold of the tree. -/
theorem reported_iff_holds {U : Unicode} {c : Checkout} {ps : List Problem} (h : check U c = .ok ps)
    (problem : Problem) : problem ∈ ps ↔ problem.Holds U c :=
  mem_iff_holds h problem

theorem reported_iff_holds_shared :
    check .ascii sharedCheckout = .ok sharedProblems ∧
      ∀ problem, problem ∈ sharedProblems ↔ problem.Holds .ascii sharedCheckout := by
  have hcheck : check .ascii sharedCheckout = .ok sharedProblems := by decide +kernel
  exact ⟨hcheck, reported_iff_holds hcheck⟩

/-- A run that comes to its end succeeds iff nothing is wrong with the tree, and prints the
message of everything that is. -/
theorem main_succeeds_iff {U : Unicode} {c : Checkout} {lines : List Str} {status : Nat}
    (h : main U c = .ok (lines, status)) :
    (status = 0 ↔ ∀ problem : Problem, ¬ problem.Holds U c) ∧
      ∀ problem : Problem, problem.Holds U c → problem.text ∈ lines := by
  obtain ⟨found, hcheck, hfound⟩ := bind_eq_ok.mp h
  have hmem := mem_iff_holds hcheck
  cases hfound
  constructor
  · simp only [← hmem, ← List.eq_nil_iff_forall_not_mem]
    split <;> simp_all
  · intro problem hholds
    exact List.mem_append_left _ (List.mem_map_of_mem ((hmem problem).mpr hholds))

end CheckRfdNumbers
