import FabricManuals.Lib.TextFile
import Mathlib.Data.List.TakeWhile

/-! # POSIX path strings

`join`, `dirname`, `basename`, `normpath`, `abspath` and `relpath` on path
strings, and the walk over segments they all amount to.  A relative URL path is
resolved by the same walk.  The working directory is an argument of the
operations that read it. -/
set_option autoImplicit false

namespace PosixPath

open TextFile

def dot : Str := ['.']
def dotdot : Str := ['.', '.']

def split (s : Str) : List Str := s.splitOn '/'
def joinSegs (segs : List Str) : Str := ['/'].intercalate segs

def isabs (s : Str) : Bool := s.head? == some '/'

def join (a b : Str) : Str :=
  if isabs b then b
  else if a = [] ∨ a.getLast? = some '/' then a ++ b
  else a ++ '/' :: b

def joinAll : List Str → Str
  | [] => []
  | a :: rest => rest.foldl join a

def head (s : Str) : Str := (s.reverse.dropWhile (· != '/')).reverse
def basename (s : Str) : Str := (s.reverse.takeWhile (· != '/')).reverse

def rstripSlash (s : Str) : Str := (s.reverse.dropWhile (· == '/')).reverse

def dirname (s : Str) : Str :=
  if (head s).all (· == '/') then head s else rstripSlash (head s)

def pushComp (rooted : Bool) (comps : List Str) (comp : Str) : List Str :=
  if comp = [] ∨ comp = dot then comps
  else if comp ≠ dotdot ∨ (rooted = false ∧ comps = []) ∨ comps.getLast? = some dotdot then
    comps ++ [comp]
  else comps.dropLast

/-- Two leading slashes are kept, three or more count as one. -/
def initialSlashes (s : Str) : Nat :=
  if ['/', '/', '/'].isPrefixOf s then 1
  else if ['/', '/'].isPrefixOf s then 2
  else if isabs s then 1 else 0

def normpath (s : Str) : Str :=
  if s = [] then dot
  else
    let comps := (split s).foldl (pushComp (isabs s)) []
    let path := List.replicate (initialSlashes s) '/' ++ joinSegs comps
    if path = [] then dot else path

def abspath (cwd s : Str) : Str := normpath (if isabs s then s else join cwd s)

def parts (s : Str) : List Str := (split s).filter (· ≠ [])

def commonPrefix : List Str → List Str → List Str
  | a :: as, b :: bs => if a = b then a :: commonPrefix as bs else []
  | _, _ => []

/-- `none` is the `ValueError` of an empty path. -/
def relpath (cwd path start : Str) : Option Str :=
  if path = [] then none
  else
    let startList := parts (abspath cwd start)
    let pathList := parts (abspath cwd path)
    let i := (commonPrefix startList pathList).length
    let relList := List.replicate (startList.length - i) dotdot ++ pathList.drop i
    some (if relList = [] then dot else joinAll relList)

def step (here : List Str) (seg : Str) : List Str :=
  if seg = [] ∨ seg = dot then here else if seg = dotdot then here.dropLast else here ++ [seg]

def walk (base segs : List Str) : List Str := segs.foldl step base

/-- Where a relative URL path leads from a directory. -/
def urlTarget (dir : List Str) (url : Str) : List Str := walk dir (split url)

/-- A segment that names something, and nothing but a segment. -/
structure Plain (seg : Str) : Prop where
  ne_nil : seg ≠ []
  ne_dot : seg ≠ dot
  ne_dotdot : seg ≠ dotdot
  no_slash : '/' ∉ seg

theorem walk_append (base a b : List Str) : walk base (a ++ b) = walk (walk base a) b :=
  List.foldl_append ..

theorem walk_cons (base : List Str) (seg : Str) (rest : List Str) :
    walk base (seg :: rest) = walk (step base seg) rest := rfl

theorem step_plain {seg : Str} (h : Plain seg) (base : List Str) : step base seg = base ++ [seg] := by
  simp [step, h.ne_nil, h.ne_dot, h.ne_dotdot]

theorem walk_plain : ∀ (segs base : List Str), (∀ s ∈ segs, Plain s) →
    walk base segs = base ++ segs := by
  intro segs
  induction segs with
  | nil => intro base _; simp [walk]
  | cons s rest ih =>
      intro base h
      obtain ⟨hs, hrest⟩ := List.forall_mem_cons.mp h
      rw [walk_cons, step_plain hs, ih _ hrest, List.append_assoc, List.singleton_append]

theorem walk_ups (base : List Str) : ∀ n, walk base (List.replicate n dotdot) =
    base.take (base.length - n) := by
  intro n
  induction n with
  | zero => simp [walk]
  | succ n ih =>
      have hstep : ∀ l : List Str, step l dotdot = l.dropLast := by
        intro l; simp [step, dotdot, dot]
      rw [List.replicate_succ', walk_append, ih, walk_cons, hstep, walk, List.foldl_nil,
        List.dropLast_eq_take, List.take_take, List.length_take]
      congr 1
      omega

theorem split_ne_nil (s : Str) : split s ≠ [] := List.splitOn_ne_nil '/' s

theorem joinSegs_split (s : Str) : joinSegs (split s) = s := List.intercalate_splitOn _

theorem split_joinSegs {segs : List Str} (hne : segs ≠ []) (h : ∀ s ∈ segs, '/' ∉ s) :
    split (joinSegs segs) = segs := List.splitOn_intercalate _ h hne

theorem no_slash_of_mem_split {s seg : Str} (h : seg ∈ split s) : '/' ∉ seg := by
  have main : ∀ s : Str, ∀ seg ∈ split s, '/' ∉ seg := by
    intro s
    induction s with
    | nil => simp [split]
    | cons c rest ih =>
        intro seg hseg
        rw [split, List.splitOn_cons_eq_if_modifyHead] at hseg
        split at hseg
        · rcases List.mem_cons.mp hseg with rfl | hseg
          · simp
          · exact ih seg hseg
        · next hc =>
            obtain ⟨a, l, hal⟩ := List.exists_cons_of_ne_nil (split_ne_nil rest)
            rw [show List.splitOn '/' rest = a :: l from hal, List.modifyHead_cons] at hseg
            rcases List.mem_cons.mp hseg with rfl | hseg
            · have hslash : c ≠ '/' := by simpa using hc
              simp [hslash.symm, ih a (by rw [hal]; simp)]
            · exact ih seg (by rw [hal]; exact List.mem_cons_of_mem _ hseg)
  exact main s seg h

theorem split_append_slash (a b : Str) : split (a ++ '/' :: b) = split a ++ split b :=
  List.splitOn_append_cons_self ..

theorem joinSegs_cons_cons (a b : Str) (rest : List Str) :
    joinSegs (a :: b :: rest) = a ++ '/' :: joinSegs (b :: rest) := by
  simp [joinSegs, List.intercalate_cons_cons]

theorem joinSegs_concat {init : List Str} (h : init ≠ []) (last : Str) :
    joinSegs (init ++ [last]) = joinSegs init ++ '/' :: last := by
  induction init with
  | nil => exact absurd rfl h
  | cons a rest ih =>
      cases rest with
      | nil => simp [joinSegs, List.intercalate_cons_cons]
      | cons b rest =>
          rw [List.cons_append, List.cons_append, joinSegs_cons_cons, ← List.cons_append, ih (by simp),
            joinSegs_cons_cons, List.append_assoc, List.cons_append]

theorem joinSegs_ne_nil {segs : List Str} (hne : segs ≠ []) (h : ∀ s ∈ segs, Plain s) :
    joinSegs segs ≠ [] := by
  cases segs with
  | nil => exact absurd rfl hne
  | cons a rest =>
      have ha := (h a (List.mem_cons_self ..)).ne_nil
      cases rest with
      | nil => simpa [joinSegs] using ha
      | cons b rest => simp [joinSegs_cons_cons]

theorem not_isabs_joinSegs {segs : List Str} (h : ∀ s ∈ segs, s ≠ [] ∧ '/' ∉ s) :
    isabs (joinSegs segs) = false := by
  cases segs with
  | nil => rfl
  | cons a rest =>
      obtain ⟨hne, hslash⟩ := h a (List.mem_cons_self ..)
      obtain ⟨c, l, rfl⟩ := List.exists_cons_of_ne_nil hne
      have hc : c ≠ '/' := fun e => hslash (e ▸ List.mem_cons_self ..)
      cases rest with
      | nil => simpa [isabs, joinSegs] using hc
      | cons b rest => simpa [isabs, joinSegs_cons_cons] using hc

theorem walk_split_join (base : List Str) (a b : Str) (hb : isabs b = false) :
    walk base (split (join a b)) = walk (walk base (split a)) (split b) := by
  have hskip : ∀ l : List Str, walk l [[]] = l := fun l => by simp [walk, step]
  rw [join, hb, if_neg (by simp)]
  by_cases hjoin : a = [] ∨ a.getLast? = some '/'
  · rw [if_pos hjoin]
    rcases hjoin with rfl | hlast
    · simp [split, hskip]
    · obtain ⟨init, rfl⟩ : ∃ init, a = init ++ ['/'] := by
        rw [List.getLast?_eq_some_iff] at hlast
        exact hlast
      have hempty : split ([] : Str) = [[]] := rfl
      rw [List.append_assoc, List.singleton_append, split_append_slash,
        split_append_slash init [], hempty, walk_append, walk_append, hskip]
  · rw [if_neg hjoin, split_append_slash, walk_append]

/-! ## Normalisation and absolute paths -/

theorem foldl_pushComp_rooted : ∀ (segs comps : List Str), dotdot ∉ comps →
    segs.foldl (pushComp true) comps = walk comps segs := by
  intro segs
  induction segs with
  | nil => intro comps _; rfl
  | cons seg rest ih =>
      intro comps h
      have hlast : comps.getLast? ≠ some dotdot := fun e => h (List.mem_of_getLast? e)
      have hpush : pushComp true comps seg = step comps seg := by
        simp only [pushComp, step, hlast, or_false, Bool.true_eq_false, false_and]
        split
        · rfl
        · by_cases hseg : seg = dotdot <;> simp [hseg]
      have hkeep : dotdot ∉ step comps seg := by
        unfold step
        split
        · exact h
        · split
          · exact fun e => h (List.mem_of_mem_dropLast e)
          · next hseg => simpa [Ne.symm hseg] using h
      rw [List.foldl_cons, hpush, ih _ hkeep, walk_cons]

theorem mem_walk {segs base : List Str} {s : Str} (h : s ∈ walk base segs) :
    s ∈ base ∨ (s ∈ segs ∧ s ≠ [] ∧ s ≠ dot ∧ s ≠ dotdot) := by
  induction segs generalizing base with
  | nil => exact Or.inl h
  | cons seg rest ih =>
      rw [walk_cons] at h
      rcases ih h with h | ⟨h, hs⟩
      · unfold step at h
        split at h
        · exact Or.inl h
        · next hempty =>
            split at h
            · exact Or.inl (List.mem_of_mem_dropLast h)
            · next hup =>
                rcases List.mem_append.mp h with h | h
                · exact Or.inl h
                · rw [List.mem_singleton] at h
                  subst h
                  push Not at hempty
                  exact Or.inr ⟨List.mem_cons_self .., hempty.1, hempty.2, hup⟩
      · exact Or.inr ⟨List.mem_cons_of_mem _ h, hs⟩

theorem walk_root_plain {s : Str} : ∀ seg ∈ walk [] (split s), Plain seg := by
  intro seg h
  rcases mem_walk h with h | ⟨h, hne, hdot, hdotdot⟩
  · simp at h
  · exact ⟨hne, hdot, hdotdot, no_slash_of_mem_split h⟩

theorem parts_joinSegs {segs : List Str} (h : ∀ s ∈ segs, Plain s) : parts (joinSegs segs) = segs := by
  by_cases hne : segs = []
  · subst hne; rfl
  · rw [parts, split_joinSegs hne fun s hs => (h s hs).no_slash, List.filter_eq_self]
    intro s hs
    simpa using (h s hs).ne_nil

theorem parts_slash_cons (s : Str) : parts ('/' :: s) = parts s := by
  have : split ('/' :: s) = [] :: split s := split_append_slash [] s
  simp [parts, this]

theorem parts_slashes (n : Nat) (s : Str) : parts (List.replicate n '/' ++ s) = parts s := by
  induction n with
  | zero => rfl
  | succ n ih => rw [List.replicate_succ, List.cons_append, parts_slash_cons, ih]

theorem parts_normpath {s : Str} (h : isabs s = true) : parts (normpath s) = walk [] (split s) := by
  have hne : s ≠ [] := by rintro rfl; cases h
  have hpos : ∃ k, initialSlashes s = k + 1 := by
    unfold initialSlashes
    split
    · exact ⟨0, rfl⟩
    · split
      · exact ⟨1, rfl⟩
      · exact ⟨0, rfl⟩
  obtain ⟨k, hk⟩ := hpos
  have hcomps := foldl_pushComp_rooted (split s) [] (by simp)
  rw [normpath, if_neg hne, h, hcomps]
  simp only [hk, List.replicate_succ, List.cons_append, reduceCtorEq, if_false]
  rw [parts_slash_cons, parts_slashes, parts_joinSegs walk_root_plain]

theorem isabs_join {cwd s : Str} (hcwd : isabs cwd = true) (hs : isabs s = false) :
    isabs (join cwd s) = true := by
  obtain ⟨c, rest, rfl⟩ : ∃ c rest, cwd = c :: rest := by
    cases cwd with
    | nil => cases hcwd
    | cons c rest => exact ⟨c, rest, rfl⟩
  rw [join, hs, if_neg (by simp)]
  split
  · simpa [isabs] using hcwd
  · simpa [isabs] using hcwd

theorem parts_abspath {cwd : Str} (hcwd : isabs cwd = true) (s : Str) :
    parts (abspath cwd s) =
      if isabs s then walk [] (split s) else walk (walk [] (split cwd)) (split s) := by
  unfold abspath
  by_cases hs : isabs s = true
  · rw [if_pos hs, if_pos hs, parts_normpath hs]
  · have hs' : isabs s = false := by simpa using hs
    rw [if_neg hs, if_neg hs, parts_normpath (isabs_join hcwd hs'), walk_split_join _ _ _ hs']

def absParts (cwd s : Str) : List Str := parts (abspath cwd s)

theorem absParts_join {cwd : Str} (hcwd : isabs cwd = true) (s : Str) {segs : List Str}
    (h : ∀ x ∈ segs, Plain x) :
    absParts cwd (join s (joinSegs segs)) = absParts cwd s ++ segs := by
  have hrel : isabs (joinSegs segs) = false :=
    not_isabs_joinSegs fun x hx => ⟨(h x hx).ne_nil, (h x hx).no_slash⟩
  have hwalk : ∀ base, walk base (split (joinSegs segs)) = base ++ segs := by
    intro base
    by_cases hne : segs = []
    · subst hne; simp [joinSegs, split, walk, step]
    · rw [split_joinSegs hne fun x hx => (h x hx).no_slash, walk_plain segs base h]
  rw [absParts, absParts, parts_abspath hcwd, parts_abspath hcwd]
  by_cases hs : isabs s = true
  · have hjoin : isabs (join s (joinSegs segs)) = true := isabs_join hs hrel
    rw [if_pos hs, if_pos hjoin, walk_split_join _ _ _ hrel, hwalk]
  · by_cases hjoin : isabs (join s (joinSegs segs)) = true
    · -- only an empty `s` could hand an absolute path on, and the segments are relative
      exfalso
      rw [join, hrel, if_neg (by simp)] at hjoin
      split at hjoin
      · cases s with
        | nil => rw [List.nil_append, hrel] at hjoin; cases hjoin
        | cons c rest => exact hs (by simpa [isabs] using hjoin)
      · next hc =>
          cases s with
          | nil => simp at hc
          | cons c rest => exact hs (by simpa [isabs] using hjoin)
    · rw [if_neg hs, if_neg hjoin, walk_split_join _ _ _ hrel, hwalk]

theorem absParts_joinSegs {cwd : Str} (hcwd : isabs cwd = true) {segs : List Str}
    (h : ∀ x ∈ segs, Plain x) :
    absParts cwd (joinSegs segs) = absParts cwd [] ++ segs := by
  have hjoin := absParts_join hcwd [] h
  rwa [join, not_isabs_joinSegs fun x hx => ⟨(h x hx).ne_nil, (h x hx).no_slash⟩, if_neg (by simp),
    if_pos (Or.inl rfl), List.nil_append] at hjoin

/-! ## Relative paths -/

theorem commonPrefix_append (c a b : List Str) :
    commonPrefix (c ++ a) (c ++ b) = c ++ commonPrefix a b := by
  induction c with
  | nil => rfl
  | cons x c ih => simp [commonPrefix, ih]

theorem commonPrefix_spec : ∀ a b : List Str,
    a.take (commonPrefix a b).length = b.take (commonPrefix a b).length ∧
      (commonPrefix a b).length ≤ a.length ∧ (commonPrefix a b).length ≤ b.length := by
  intro a
  induction a with
  | nil => intro b; cases b <;> simp [commonPrefix]
  | cons x a ih =>
      intro b
      cases b with
      | nil => simp [commonPrefix]
      | cons y b =>
          by_cases hxy : x = y
          · obtain ⟨h, hl, hr⟩ := ih b
            subst hxy
            simp only [commonPrefix, if_true, List.length_cons, List.take_succ_cons]
            exact ⟨by rw [h], by omega, by omega⟩
          · simp [commonPrefix, hxy]

theorem commonPrefix_of_prefix (p t : List Str) : commonPrefix (p ++ t) p = p := by
  have := commonPrefix_append p t []
  cases t with
  | nil => simpa [commonPrefix] using this
  | cons x t => simpa [commonPrefix] using this

/-- The segments `relpath` climbs and descends between two directories. -/
def relSegs (start path : List Str) : List Str :=
  List.replicate (start.length - (commonPrefix start path).length) dotdot ++
    path.drop (commonPrefix start path).length

def relHref (start path : List Str) : Str :=
  if relSegs start path = [] then dot else joinSegs (relSegs start path)

theorem joinAll_eq_joinSegs {segs : List Str} (h : ∀ s ∈ segs, s ≠ [] ∧ '/' ∉ s) :
    joinAll segs = joinSegs segs := by
  have main : ∀ (rest : List Str) (acc : Str), acc ≠ [] → acc.getLast? ≠ some '/' →
      (∀ s ∈ rest, s ≠ [] ∧ '/' ∉ s) → rest.foldl join acc = joinSegs (acc :: rest) := by
    intro rest
    induction rest with
    | nil => intro acc _ _ _; simp [joinSegs]
    | cons s rest ih =>
        intro acc hne hlast hrest
        obtain ⟨⟨hs, hslash⟩, hrest⟩ := List.forall_mem_cons.mp hrest
        have habs : isabs s = false := by
          have := @not_isabs_joinSegs [s] (by simpa using ⟨hs, hslash⟩)
          simpa [joinSegs] using this
        have hjoin : join acc s = acc ++ '/' :: s := by
          rw [join, habs, if_neg (by simp), if_neg (by simp [hne, hlast])]
        have hlast' : (acc ++ '/' :: s).getLast? ≠ some '/' := by
          rw [List.getLast?_append_of_ne_nil _ (by simp)]
          intro e
          have hmem := List.mem_of_getLast? e
          obtain ⟨c, l, rfl⟩ := List.exists_cons_of_ne_nil hs
          rw [List.getLast?_cons_cons] at e
          exact hslash (List.mem_of_getLast? e)
        rw [List.foldl_cons, hjoin, ih _ (by simp) hlast' hrest]
        cases rest with
        | nil => simp [joinSegs, List.intercalate_cons_cons]
        | cons t rest =>
            rw [joinSegs_cons_cons, joinSegs_cons_cons, joinSegs_cons_cons, List.append_assoc,
              List.cons_append]
  cases segs with
  | nil => rfl
  | cons a rest =>
      obtain ⟨⟨ha, hslash⟩, hrest⟩ := List.forall_mem_cons.mp h
      exact main rest a ha (fun e => hslash (List.mem_of_getLast? e)) hrest

/-- `relpath` between two paths whose absolute forms share a base. -/
theorem relpath_eq {cwd path start : Str} {base p s : List Str} (hne : path ≠ [])
    (hstart : absParts cwd start = base ++ s) (hpath : absParts cwd path = base ++ p)
    (hp : ∀ x ∈ p, Plain x) :
    relpath cwd path start = some (relHref s p) := by
  have hstart' : parts (abspath cwd start) = base ++ s := hstart
  have hpath' : parts (abspath cwd path) = base ++ p := hpath
  have hrel : List.replicate ((base ++ s).length - (commonPrefix (base ++ s) (base ++ p)).length)
        dotdot ++ (base ++ p).drop (commonPrefix (base ++ s) (base ++ p)).length =
      relSegs s p := by
    rw [commonPrefix_append, relSegs, List.length_append, List.length_append,
      Nat.add_sub_add_left, List.drop_append, List.drop_eq_nil_of_le (by simp), List.nil_append]
    simp
  rw [relpath, if_neg hne]
  simp only [hstart', hpath', hrel]
  have hsegs : ∀ x ∈ relSegs s p, x ≠ [] ∧ '/' ∉ x := by
    intro x hx
    rcases List.mem_append.mp hx with hx | hx
    · obtain rfl := List.eq_of_mem_replicate hx
      decide
    · have := hp x (List.mem_of_mem_drop hx)
      exact ⟨this.ne_nil, this.no_slash⟩
  rw [joinAll_eq_joinSegs hsegs, relHref]

theorem relpath_join {cwd : Str} (hcwd : isabs cwd = true) (root : Str) {segs : List Str}
    (hne : segs ≠ []) (h : ∀ x ∈ segs, Plain x) :
    relpath cwd (join root (joinSegs segs)) root = some (joinSegs segs) := by
  have hjoin : join root (joinSegs segs) ≠ [] := by
    have := joinSegs_ne_nil hne h
    unfold join
    split
    · exact this
    · split <;> simp [this]
  have hrel : relSegs [] segs = segs := by simp [relSegs, commonPrefix]
  have hstart : absParts cwd root = absParts cwd root ++ [] := (List.append_nil _).symm
  rw [relpath_eq hjoin hstart (absParts_join hcwd root h) h, relHref, hrel, if_neg hne]

theorem head_concat {init : List Str} (hne : init ≠ []) {last : Str} (h : '/' ∉ last) :
    head (joinSegs (init ++ [last])) = joinSegs init ++ ['/'] := by
  have hlast : last.reverse.dropWhile (· != '/') = [] := by
    rw [List.dropWhile_eq_nil_iff]
    intro c hc
    have : c ≠ '/' := fun e => h (e ▸ List.mem_reverse.mp hc)
    simpa using this
  rw [head, joinSegs_concat hne, List.reverse_append, List.reverse_cons, List.append_assoc,
    List.dropWhile_append, hlast]
  simp

theorem head_of_no_slash {s : Str} (h : '/' ∉ s) : head s = [] := by
  rw [head, List.dropWhile_eq_nil_iff.mpr, List.reverse_nil]
  intro c hc
  have : c ≠ '/' := fun e => h (e ▸ List.mem_reverse.mp hc)
  simpa using this

theorem getLast?_joinSegs {segs : List Str} (hne : segs ≠ []) (h : ∀ s ∈ segs, Plain s) :
    ∃ c, (joinSegs segs).getLast? = some c ∧ c ≠ '/' := by
  obtain ⟨init, last, rfl⟩ : ∃ init last, segs = init ++ [last] :=
    ⟨_, _, (List.dropLast_append_getLast hne).symm⟩
  have hlast := h last (by simp)
  obtain ⟨c, hc⟩ : ∃ c, last.getLast? = some c := by
    exact ⟨_, List.getLast?_eq_some_getLast hlast.ne_nil⟩
  refine ⟨c, ?_, fun e => hlast.no_slash (e ▸ List.mem_of_getLast? hc)⟩
  by_cases hinit : init = []
  · subst hinit; simpa [joinSegs] using hc
  · obtain ⟨d, l, rfl⟩ := List.exists_cons_of_ne_nil hlast.ne_nil
    rw [joinSegs_concat hinit, List.getLast?_append_of_ne_nil _ (by simp), List.getLast?_cons_cons, hc]

theorem dirname_joinSegs {segs : List Str} (h : ∀ s ∈ segs, Plain s) :
    dirname (joinSegs segs) = joinSegs segs.dropLast := by
  by_cases hne : segs = []
  · subst hne; rfl
  obtain ⟨init, last, rfl⟩ : ∃ init last, segs = init ++ [last] :=
    ⟨_, _, (List.dropLast_append_getLast hne).symm⟩
  have hslash := (h last (by simp)).no_slash
  rw [List.dropLast_concat, dirname]
  by_cases hinit : init = []
  · subst hinit
    have hhead : head (joinSegs ([] ++ [last])) = [] := by
      simpa [joinSegs] using head_of_no_slash hslash
    rw [hhead]
    rfl
  · have hplain : ∀ s ∈ init, Plain s := fun s hs => h s (List.mem_append_left _ hs)
    obtain ⟨c, hc, hcne⟩ := getLast?_joinSegs hinit hplain
    have hall : (joinSegs init ++ ['/']).all (· == '/') = false := by
      rw [List.all_eq_false]
      exact ⟨c, List.mem_append_left _ (List.mem_of_getLast? hc), by simpa using hcne⟩
    obtain ⟨l, hl⟩ := List.getLast?_eq_some_iff.mp hc
    rw [head_concat hinit hslash, hall, if_neg (by simp), rstripSlash, hl]
    simp [hcne]

theorem joinSegs_append_last (init : List Str) (last w : Str) :
    joinSegs (init ++ [last]) ++ w = joinSegs (init ++ [last ++ w]) := by
  by_cases hinit : init = []
  · subst hinit; simp [joinSegs]
  · rw [joinSegs_concat hinit, joinSegs_concat hinit, List.append_assoc, List.cons_append]

theorem relSegs_of_prefix {s p : List Str} (h : p <+: s) :
    relSegs s p = List.replicate (s.length - p.length) dotdot := by
  obtain ⟨t, rfl⟩ := h
  rw [relSegs, commonPrefix_of_prefix, List.drop_length, List.append_nil]

/-- An ending glued to a relative path between two places names the same place with
the ending, unless the path goes nowhere but up. -/
theorem urlTarget_relHref {s init : List Str} {last w : Str} (hinit : ∀ x ∈ init, Plain x)
    (hw : Plain (last ++ w)) (h : ¬ (init ++ [last]) <+: s) :
    urlTarget s (relHref s (init ++ [last]) ++ w) = init ++ [last ++ w] := by
  obtain ⟨htake, hs, hp⟩ := commonPrefix_spec s (init ++ [last])
  generalize hi : (commonPrefix s (init ++ [last])).length = i at htake hs hp
  have hle : i ≤ init.length := by
    by_contra hgt
    have hlen : i = (init ++ [last]).length := by
      rw [List.length_append, List.length_singleton] at hp ⊢
      omega
    rw [hlen, List.take_length] at htake
    exact h (htake ▸ List.take_prefix ..)
  -- up to what the two share, and down again
  have hrel : relSegs s (init ++ [last]) =
      (List.replicate (s.length - i) dotdot ++ init.drop i) ++ [last] := by
    rw [relSegs, hi, List.drop_append_of_le_length hle, List.append_assoc]
  have hslash : ∀ x ∈ (List.replicate (s.length - i) dotdot ++ init.drop i) ++ [last ++ w],
      '/' ∉ x := by
    intro x hx
    simp only [List.mem_append, List.mem_singleton] at hx
    rcases hx with (hx | hx) | rfl
    · rw [List.eq_of_mem_replicate hx]; decide
    · exact (hinit x (List.mem_of_mem_drop hx)).no_slash
    · exact hw.no_slash
  rw [relHref, hrel, if_neg (by simp), joinSegs_append_last, urlTarget, split_joinSegs (by simp) hslash,
    walk_append, walk_append, walk_ups, walk_plain _ _ fun x hx => hinit x (List.mem_of_mem_drop hx),
    walk_cons, step_plain hw, walk, List.foldl_nil]
  have hshared : s.take (s.length - (s.length - i)) = init.take i := by
    rw [Nat.sub_sub_self hs, htake, List.take_append_of_le_length hle]
  rw [hshared, List.take_append_drop]

theorem urlTarget_relHref_of_prefix {s p : List Str} {w : Str} (hw : w ≠ [] ∧ '/' ∉ w ∧ w ≠ dot)
    (h : p <+: s) : ∃ base, ∃ up ∈ [dot, dotdot], urlTarget s (relHref s p ++ w) = base ++ [up ++ w] := by
  obtain ⟨hne, hslash, hdot⟩ := hw
  rw [relHref, relSegs_of_prefix h]
  have hplain : ∀ up ∈ [dot, dotdot], Plain (up ++ w) := by
    obtain ⟨c, rest, rfl⟩ := List.exists_cons_of_ne_nil hne
    intro up hup
    have hc : c ≠ '/' := fun e => hslash (e ▸ List.mem_cons_self ..)
    simp only [List.mem_cons, List.not_mem_nil, or_false] at hup
    rcases hup with rfl | rfl
    · refine ⟨by simp [dot], by simp [dot], ?_, by simpa [dot] using hslash⟩
      simpa [dot, dotdot] using hdot
    · exact ⟨by simp [dotdot], by simp [dotdot, dot], by simp [dotdot], by simpa [dotdot] using hslash⟩
  cases hn : s.length - p.length with
  | zero =>
      refine ⟨s, dot, by simp, ?_⟩
      have hseg : split (dot ++ w) = [dot ++ w] := by
        have := @split_joinSegs [dot ++ w] (by simp) (by simpa using (hplain dot (by simp)).no_slash)
        simpa [joinSegs] using this
      rw [List.replicate_zero, if_pos rfl, urlTarget, hseg, walk_cons, step_plain (hplain dot (by simp))]
      rfl
  | succ n =>
      refine ⟨walk s (List.replicate n dotdot), dotdot, by simp, ?_⟩
      have hseg : ∀ x ∈ List.replicate n dotdot ++ [dotdot ++ w], '/' ∉ x := by
        intro x hx
        rcases List.mem_append.mp hx with hx | hx
        · rw [List.eq_of_mem_replicate hx]; decide
        · rw [List.mem_singleton.mp hx]; exact (hplain dotdot (by simp)).no_slash
      rw [List.replicate_succ', if_neg (by simp), joinSegs_append_last, urlTarget,
        split_joinSegs (by simp) hseg, walk_append, walk_cons, step_plain (hplain dotdot (by simp))]
      rfl

end PosixPath
