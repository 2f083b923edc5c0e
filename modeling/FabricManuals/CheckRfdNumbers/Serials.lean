import FabricManuals.CheckRfdNumbers.Unreadable
import FabricManuals.Lib.Attempts
import FabricManuals.Lib.Grouping

/-! # Serials that several folders bear

`seen` keeps one folder for each serial, the last one so far.  That is enough for the
gate to name every collision once and to look up every serial once. -/
set_option autoImplicit false

namespace CheckRfdNumbers

open TextFile Backtrack FileTree OrderedDict PosixPath Attempts

def serial (d : Name) : Option Str := (first DIR_RE [] d).map groupOf

def bearing (num : Str) (dirs : List Name) : List Name := dirs.filter fun d => serial d = some num

/-- The directories under `rfd/` whose names bear the serial, in sorted order. -/
def bearers (t : Tree) (num : Str) : List Name :=
  sorted (bearing num ((t.listdir [rfd]).filter fun d => t.isdir [rfd, d]))

theorem serial_eq_some_iff (d : Name) (num : Str) :
    serial d = some num ↔ IsNum num ∧ ∃ slug tail, IsSlugText slug ∧ d = num ++ '-' :: slug ++ tail ∧
      (tail = [] ∨ tail = ['\n']) := by
  rw [serial, Option.map_eq_some_iff]
  constructor
  · intro h
    obtain ⟨m, hm, rfl⟩ := h
    obtain ⟨slug, tail, hnum, hslug, hd, htail⟩ := first_dirRe hm
    exact ⟨hnum, slug, tail, hslug, hd, htail⟩
  · intro h
    obtain ⟨hnum, slug, tail, hslug, rfl, htail⟩ := h
    have hsome : (first DIR_RE [] (num ++ '-' :: slug ++ tail)).isSome := by
      rw [first_isSome_iff]
      refine ⟨⟨(num ++ '-' :: slug).reverse, tail, some num⟩, (mem_run_dirRe _ _).mpr ?_⟩
      exact ⟨num, slug, hnum, hslug, ⟨rfl, by simp⟩, rfl, htail⟩
    obtain ⟨m, hm⟩ := Option.isSome_iff_exists.mp hsome
    obtain ⟨slug', tail', hnum', -, hd, -⟩ := first_dirRe hm
    refine ⟨m, hm, (hnum.unique hnum' ('-' :: slug ++ tail) ('-' :: slug' ++ tail') ?_).symm⟩
    simpa using hd

theorem candidate_of_serial {d : Name} {num : Str} (h : serial d = some num) :
    (first candidateRe [] d).isSome := by
  obtain ⟨hnum, slug, tail, -, rfl, -⟩ := (serial_eq_some_iff d num).mp h
  rw [List.append_assoc]
  exact candidate_of_name hnum (slug ++ tail)

theorem mem_bearers (t : Tree) (num : Str) (d : Name) :
    d ∈ bearers t num ↔ t.isdir [rfd, d] = true ∧ serial d = some num := by
  rw [bearers, sorted, List.mem_insertionSort, bearing, List.mem_filter, List.mem_filter,
    decide_eq_true_eq, mem_listdir]
  constructor
  · exact fun h => ⟨h.1.2, h.2⟩
  · exact fun h => ⟨⟨⟨.dir, (isdir_iff t (by simp)).mp h.1⟩, h.1⟩, h.2⟩

theorem pairwise_sorted (l : List Str) : (sorted l).Pairwise (· ≤ ·) :=
  List.pairwise_insertionSort (· ≤ ·) l

theorem pairwise_bearers (t : Tree) (num : Str) : (bearers t num).Pairwise (· < ·) := by
  have hnodup : (bearers t num).Nodup := by
    rw [bearers, sorted, (List.perm_insertionSort _ _).nodup_iff]
    exact ((nodup_listdir t [rfd]).filter _).filter _
  exact (pairwise_sorted _).imp₂ (fun _ _ hle hne => lt_of_le_of_ne hle hne) hnodup

theorem sorted_filter (l : List Str) (p : Str → Bool) : (sorted l).filter p = sorted (l.filter p) := by
  have hperm : ((sorted l).filter p).Perm (sorted (l.filter p)) :=
    ((List.perm_insertionSort _ l).filter p).trans (List.perm_insertionSort _ _).symm
  exact hperm.eq_of_pairwise' ((pairwise_sorted l).filter p) (pairwise_sorted _)

theorem bearing_candidates (t : Tree) (num : Str) : bearing num (candidates t) = bearers t num := by
  rw [candidates, bearing, sorted_filter, bearers, bearing, List.filter_filter, List.filter_filter]
  congr 1
  refine List.filter_congr fun d _ => ?_
  by_cases hserial : serial d = some num
  · rw [candidate_of_serial hserial, Bool.and_true]
  · simp [hserial]

/-! ## The loop -/

/-- The collisions reported for the serial: the folder, and the one it names. -/
def collisions (num : Str) (problems : List Problem) : List (Name × Name) :=
  problems.filterMap fun
    | .serialUsed d num' by' => if num' = num then some (d, by') else none
    | _ => none

theorem collisions_append (num : Str) (ps qs : List Problem) :
    collisions num (ps ++ qs) = collisions num ps ++ collisions num qs := List.filterMap_append

theorem collisions_of_about {num : Str} {ps : List Problem} (root : Path)
    (h : ∀ problem ∈ ps, ∃ p, problem.About root p) : collisions num ps = [] := by
  rw [collisions, List.filterMap_eq_nil_iff]
  intro problem hproblem
  obtain ⟨p, hp⟩ := h problem hproblem
  cases problem with
  | serialUsed d num' by' => exact absurd hp (by simp [Problem.About])
  | _ => rfl

theorem collisions_nameProblems (num : Str) (seen : Dict Str Name) (d : Name) (num' : Str) :
    collisions num (nameProblems seen d num') =
      if num' = num then ((seen.get? num).map (d, ·)).toList else [] := by
  have horg : collisions num (if num'.take 1 ≠ [ORG] then [Problem.badOrg d (num'.take 1)] else []) = [] := by
    split <;> rfl
  rw [nameProblems, collisions_append, horg, List.nil_append]
  by_cases hnum : num' = num
  · subst hnum
    rw [if_pos rfl]
    cases seen.get? num' with
    | none => rfl
    | some by' => simp [collisions]
  · rw [if_neg hnum]
    cases seen.get? num' with
    | none => rfl
    | some by' => simp [collisions, hnum]

/-- After these directories: who `seen` has for a serial, and what was said of it. -/
structure Counted (done : List Name) (st : Numbering) : Prop where
  last : ∀ num, st.seen.get? num = (bearing num done).getLast?
  reported : ∀ num, collisions num st.problems = successive (bearing num done)

theorem bearing_concat (num : Str) (done : List Name) (d : Name) :
    bearing num (done ++ [d]) =
      if serial d = some num then bearing num done ++ [d] else bearing num done := by
  rw [bearing, List.filter_append, List.filter_singleton]
  by_cases hserial : serial d = some num
  · simp [bearing, hserial]
  · simp [bearing, hserial]

theorem Counted.round {t : Tree} {done : List Name} {st st' : Numbering} {d : Name}
    (h : Counted done st) (hround : checkDir t st d = .ok st') : Counted (done ++ [d]) st' := by
  cases hm : first DIR_RE [] d with
  | none =>
      -- the first way to leave the round early: no serial, so no entry
      have hserial : serial d = none := by rw [serial, hm]; rfl
      have hbearing : ∀ num, bearing num (done ++ [d]) = bearing num done := by
        intro num
        rw [bearing_concat, hserial, if_neg (by simp)]
      simp only [checkDir, hm] at hround
      obtain rfl := Except.ok.inj hround
      constructor
      · intro num
        rw [hbearing]
        exact h.last num
      · intro num
        rw [hbearing, collisions_append, h.reported]
        exact List.append_nil _
  | some m =>
      have hserial : serial d = some (groupOf m) := by rw [serial, hm]; rfl
      rw [checkDir_eq t st hm] at hround
      cases hpage : indexProblems t d (groupOf m) with
      | error e =>
          rw [hpage] at hround
          cases hround
      | ok page =>
          rw [hpage] at hround
          obtain rfl := Except.ok.inj hround
          -- the second way lies inside `page`, behind the entry
          have hquiet : ∀ num, collisions num page = [] := fun num =>
            collisions_of_about [] fun problem hproblem =>
              ⟨_, indexProblems_about hpage problem hproblem⟩
          have hbearing : ∀ num, bearing num (done ++ [d]) =
              if groupOf m = num then bearing num done ++ [d] else bearing num done := by
            intro num
            simp only [bearing_concat, hserial, Option.some_inj]
          constructor
          · intro num
            rw [get?_set, hbearing, h.last]
            by_cases hnum : groupOf m = num
            · rw [if_pos hnum.symm, if_pos hnum, List.getLast?_concat]
            · rw [if_neg (Ne.symm hnum), if_neg hnum]
          · intro num
            rw [collisions_append, collisions_append, h.reported, collisions_nameProblems, hquiet,
              List.append_nil, hbearing, h.last]
            by_cases hnum : groupOf m = num
            · rw [if_pos hnum, if_pos hnum, successive_concat]
            · rw [if_neg hnum, if_neg hnum, List.append_nil]

theorem counted_foldlM {t : Tree} {dirs : List Name} {problems : List Problem} {st : Numbering}
    (hstart : ∀ num, collisions num problems = [])
    (h : dirs.foldlM (checkDir t) ⟨problems, .empty⟩ = .ok st) : Counted dirs st := by
  apply invariant_foldlM (I := Counted) ⟨fun num => get?_empty num, hstart⟩ ?_ h
  intro done d st st' hdone hround
  exact hdone.round hround

theorem citePass_about (U : Unicode) (c : Checkout) :
    ∀ problem ∈ citePass U c, ∃ p, problem.About c.root p := by
  intro problem h
  obtain ⟨⟨cur, files⟩, -, hproblem⟩ := List.mem_flatMap.mp h
  by_cases hskip : skipped (c.root ++ cur) = true
  · simp only [hskip, if_true] at hproblem
    cases hproblem
  · simp only [hskip] at hproblem
    obtain ⟨f, -, hcite⟩ := List.mem_flatMap.mp hproblem
    refine ⟨cur ++ [f], ?_⟩
    unfold citeFile at hcite
    split at hcite
    · cases hcite
    · split at hcite
      · cases hcite
      · obtain ⟨num, -, rfl⟩ := List.mem_map.mp hcite
        rfl

theorem linkPass_about {c : Checkout} {links : List Problem} (h : linkPass c = .ok links) :
    ∀ problem ∈ links, ∃ p, problem.About c.root p := by
  intro problem hproblem
  obtain ⟨⟨cur, f⟩, -, here, hhere, hmem⟩ := (mem_collect h problem).mp hproblem
  refine ⟨cur ++ [f], ?_⟩
  unfold linkFile at hhere
  split at hhere
  · split at hhere
    · cases hhere
    · obtain rfl := Except.ok.inj hhere
      obtain ⟨target, -, rfl⟩ := List.mem_map.mp hmem
      rfl
  · obtain rfl := Except.ok.inj hhere
    cases hmem

def lookUp (mapped : List Str) : List Str → List Problem × List Str
  | [] => ([], [])
  | num :: rest =>
    let (rows, looked) := lookUp mapped rest
    (if mapped.contains num then rows else .noRow num :: rows, num :: looked)

def aliasLookups (t : Tree) (seen : Dict Str Name) : Except PyError (List Problem × List Str) :=
  if t.exists [aliasesMd] = false then .ok ([.noAliases], [])
  else do
    let text ← readStrict t [aliasesMd]
    return lookUp (findall aliasRe text) (sorted seen.keys)

/-- `check`, which says as well what it looked up in the alias table. -/
def checkTraced (U : Unicode) (c : Checkout) : Except PyError (List Problem × List Str) :=
  if c.tree.isdir [rfd] = false then .ok ([.noRfdDirectory], [])
  else do
    let dirs := candidates c.tree
    let none' := if dirs = [] then [Problem.noDirectories] else []
    let numbering ← dirs.foldlM (checkDir c.tree) ⟨none', .empty⟩
    let links ← linkPass c
    let (rows, looked) ← aliasLookups c.tree numbering.seen
    return (numbering.problems ++ citePass U c ++ links ++ rows, looked)

theorem lookUp_eq (mapped nums : List Str) :
    lookUp mapped nums = ((nums.filter fun num => !mapped.contains num).map .noRow, nums) := by
  induction nums with
  | nil => rfl
  | cons num rest ih =>
      rw [lookUp, ih, List.filter_cons]
      cases mapped.contains num <;> rfl

theorem aliasPass_eq_ok_iff {t : Tree} {seen : Dict Str Name} {rows : List Problem} :
    aliasPass t seen = .ok rows ↔ ∃ looked, aliasLookups t seen = .ok (rows, looked) ∧
      (t.exists [aliasesMd] = true → looked = sorted seen.keys) := by
  unfold aliasPass aliasLookups
  by_cases hex : t.exists [aliasesMd] = false
  · simp [hex]
  · rw [if_neg hex, if_neg hex]
    cases readStrict t [aliasesMd] with
    | error e => simp [bind, Except.bind]
    | ok text => simp [bind, Except.bind, pure, Except.pure, lookUp_eq, hex]

/-! ## The count -/

theorem bearers_eq_nil {t : Tree} (h : t.isdir [rfd] = false) (num : Str) : bearers t num = [] := by
  rw [List.eq_nil_iff_forall_not_mem]
  intro d hd
  have hdir := (isdir_iff t (by simp)).mp ((mem_bearers t num d).mp hd).1
  rcases t.closed _ hdir with hnil | hparent
  · cases hnil
  · have hrfd : t.isdir [rfd] = true := (isdir_iff t (by simp)).mpr hparent
    rw [hrfd] at h
    cases h

theorem mem_keys_iff {dirs : List Name} {st : Numbering} (h : Counted dirs st) (num : Str) :
    num ∈ sorted st.seen.keys ↔ bearing num dirs ≠ [] := by
  have hmem : num ∈ st.seen.keys ↔ ∃ d, st.seen.get? num = some d := mem_iff_get? st.seen num
  rw [sorted, List.mem_insertionSort, hmem, h.last, ← Option.isSome_iff_exists, List.getLast?_isSome]

/-- Each serial has one collision for every bearer behind the first, which names the
bearer before it. -/
theorem collisions_of_check {U : Unicode} {c : Checkout} {problems : List Problem}
    (h : check U c = .ok problems) (num : Str) :
    collisions num problems = successive (bearers c.tree num) := by
  by_cases hrfd : c.tree.isdir [rfd] = false
  · rw [check, if_pos hrfd] at h
    obtain rfl := Except.ok.inj h
    rw [bearers_eq_nil hrfd]
    rfl
  · obtain ⟨st, links, rows, hst, hlinks, hrows, rfl⟩ :=
      (check_eq_ok U c (by simpa using hrfd) problems).mp h
    have hcounted := counted_foldlM (by intro num; split <;> rfl) hst
    have hcite : collisions num (citePass U c) = [] := collisions_of_about c.root (citePass_about U c)
    have hlink : collisions num links = [] := collisions_of_about c.root (linkPass_about hlinks)
    have halias : collisions num rows = [] := collisions_of_about c.root fun problem hproblem =>
      ⟨_, aliasPass_about hrows problem hproblem⟩
    simp only [collisions_append, hcite, hlink, halias, List.append_nil, hcounted.reported,
      bearing_candidates]

theorem looked_of_check {U : Unicode} {c : Checkout} {problems : List Problem}
    (h : check U c = .ok problems) : ∃ looked, checkTraced U c = .ok (problems, looked) ∧
      (c.tree.exists [aliasesMd] = true →
        looked.Nodup ∧ ∀ num, num ∈ looked ↔ bearers c.tree num ≠ []) := by
  unfold checkTraced
  by_cases hrfd : c.tree.isdir [rfd] = false
  · rw [check, if_pos hrfd] at h
    obtain rfl := Except.ok.inj h
    rw [if_pos hrfd]
    refine ⟨[], rfl, fun _ => ⟨List.nodup_nil, fun num => ?_⟩⟩
    simp [bearers_eq_nil hrfd]
  · obtain ⟨st, links, rows, hst, hlinks, hrows, rfl⟩ :=
      (check_eq_ok U c (by simpa using hrfd) problems).mp h
    have hcounted := counted_foldlM (by intro num; split <;> rfl) hst
    obtain ⟨looked, hlooked, hkeys⟩ := aliasPass_eq_ok_iff.mp hrows
    rw [if_neg hrfd]
    refine ⟨looked, ?_, fun hex => ?_⟩
    · simp only [hst, hlinks, hlooked, bind, Except.bind, pure, Except.pure]
    · rw [hkeys hex]
      refine ⟨(List.perm_insertionSort _ _).nodup_iff.mpr st.seen.nodup, fun num => ?_⟩
      rw [mem_keys_iff hcounted, bearing_candidates]

/-- The gate comes to a list unless a file that it opens does not open or decode, and the
list has every collision once, each serial looked up once. -/
theorem collisions_counted (U : Unicode) (c : Checkout) :
    ((∃ problems, check U c = .ok problems) ↔ c.tree.isdir [rfd] = false ∨ ¬ Raises c.tree) ∧
    ∀ problems, check U c = .ok problems →
      (∀ num, collisions num problems = successive (bearers c.tree num) ∧
        (collisions num problems).length = (bearers c.tree num).length - 1) ∧
      ∃ looked, checkTraced U c = .ok (problems, looked) ∧
        (c.tree.exists [aliasesMd] = true →
          looked.Nodup ∧ ∀ num, num ∈ looked ↔ bearers c.tree num ≠ []) := by
  refine ⟨check_ok_iff U c, fun problems h => ⟨fun num => ?_, looked_of_check h⟩⟩
  have hcollisions := collisions_of_check h num
  exact ⟨hcollisions, by rw [hcollisions, length_successive]⟩

def sharedTree : Tree where
  entries := [([rfd], .dir), ([rfd, "2001-c".toList], .dir), ([rfd, "2001-a".toList], .dir),
    ([rfd, "2001-b".toList], .dir), ([aliasesMd], .file (ascii "| RFD 0001 | RFD 2001 |\n".toList))]
  nodup := by decide
  plain := by decide
  closed := by decide

def sharedCheckout : Checkout := ⟨["tmp".toList], ["check-rfd-numbers.py".toList], sharedTree⟩

def sharedProblems : List Problem :=
  [.noIndex "2001-a".toList, .serialUsed "2001-b".toList "2001".toList "2001-a".toList,
    .noIndex "2001-b".toList, .serialUsed "2001-c".toList "2001".toList "2001-b".toList,
    .noIndex "2001-c".toList]

theorem collisions_counted_shared :
    check .ascii sharedCheckout = .ok sharedProblems ∧
      collisions "2001".toList sharedProblems = successive (bearers sharedTree "2001".toList) ∧
      (collisions "2001".toList sharedProblems).length = (bearers sharedTree "2001".toList).length - 1 := by
  have hcheck : check .ascii sharedCheckout = .ok sharedProblems := by decide +kernel
  exact ⟨hcheck, ((collisions_counted .ascii sharedCheckout).2 sharedProblems hcheck).1 "2001".toList⟩

end CheckRfdNumbers
