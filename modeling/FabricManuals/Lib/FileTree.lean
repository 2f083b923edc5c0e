import FabricManuals.Lib.PosixPath
import Mathlib.Data.List.Nodup
import Mathlib.Data.List.Perm.Basic

/-! # File trees

A tree lists what it holds in the order the file system would, by path from the
top.  Names are plain segments, no path occurs twice and every parent is a
directory of the tree.  A listed entry may refuse to open: a file without
permission, a symbolic link to nothing.  The operations that write keep the
three invariants. -/
set_option autoImplicit false

namespace FileTree

open TextFile PosixPath

abbrev Name := Str
abbrev Path := List Name

inductive Entry
  | dir
  | file (bytes : List UInt8)
  | denied
  | dangling
deriving DecidableEq

inductive OSError
  | notFound
  | isDirectory
  | notDirectory
  | permission
deriving DecidableEq

structure Tree where
  entries : List (Path × Entry)
  nodup : (entries.map Prod.fst).Nodup
  plain : ∀ e ∈ entries, e.1 ≠ [] ∧ ∀ n ∈ e.1, Plain n
  closed : ∀ e ∈ entries, e.1.dropLast = [] ∨ (e.1.dropLast, Entry.dir) ∈ entries

instance (seg : Str) : Decidable (Plain seg) :=
  decidable_of_iff (seg ≠ [] ∧ seg ≠ dot ∧ seg ≠ dotdot ∧ '/' ∉ seg)
    ⟨fun h => ⟨h.1, h.2.1, h.2.2.1, h.2.2.2⟩, fun h => ⟨h.1, h.2, h.3, h.4⟩⟩

/-! ## Reading -/

def Tree.find? (t : Tree) (p : Path) : Option Entry :=
  if p = [] then some .dir else (t.entries.find? (·.1 = p)).map Prod.snd

def Tree.isdir (t : Tree) (p : Path) : Bool := t.find? p == some .dir

def Tree.exists (t : Tree) (p : Path) : Bool :=
  match t.find? p with
  | none => false
  | some .dangling => false
  | some _ => true

def Tree.read (t : Tree) (p : Path) : Except OSError (List UInt8) :=
  match t.find? p with
  | some (.file bytes) => .ok bytes
  | some .dir => .error .isDirectory
  | some .denied => .error .permission
  | _ => .error .notFound

def childOf (dir : Path) (e : Path × Entry) : Option Name :=
  if e.1.dropLast = dir then e.1.getLast? else none

def Tree.listdir (t : Tree) (dir : Path) : List Name := t.entries.filterMap (childOf dir)

def Tree.filesIn (t : Tree) (dir : Path) : List Name :=
  (t.entries.filter (·.2 ≠ .dir)).filterMap (childOf dir)

def Tree.dirsBelow (t : Tree) (top : Path) : List Path :=
  (t.entries.filter fun e => e.2 = .dir ∧ top <+: e.1 ∧ e.1 ≠ top).map Prod.fst

/-- The directories at and below `top`, each with the names in it that are not
directories. -/
def Tree.walk (t : Tree) (top : Path) : List (Path × List Name) :=
  if t.isdir top then (top :: t.dirsBelow top).map fun cur => (cur, t.filesIn cur) else []

theorem find?_eq_some_iff (t : Tree) {p : Path} (hp : p ≠ []) (e : Entry) :
    t.find? p = some e ↔ (p, e) ∈ t.entries := by
  have main : ∀ l : List (Path × Entry), (l.map Prod.fst).Nodup →
      ((l.find? (·.1 = p)).map Prod.snd = some e ↔ (p, e) ∈ l) := by
    intro l
    induction l with
    | nil => simp
    | cons x rest ih =>
        intro hl
        obtain ⟨q, e'⟩ := x
        rw [List.map_cons, List.nodup_cons] at hl
        by_cases h : q = p
        · subst h
          have : ∀ w, (q, w) ∉ rest := fun w hw => hl.1 (List.mem_map.mpr ⟨(q, w), hw, rfl⟩)
          simp [this, eq_comm]
        · simp [h, Ne.symm h, ih hl.2]
  rw [Tree.find?, if_neg hp]
  exact main t.entries t.nodup

theorem isdir_iff (t : Tree) {p : Path} (hp : p ≠ []) :
    t.isdir p = true ↔ (p, Entry.dir) ∈ t.entries := by
  rw [Tree.isdir, beq_iff_eq, find?_eq_some_iff t hp]

theorem isdir_of_below (t : Tree) {p rest : Path} (hp : p ≠ []) (hrest : rest ≠ []) {e : Entry}
    (h : (p ++ rest, e) ∈ t.entries) : t.isdir p = true := by
  induction rest using List.reverseRecOn generalizing e with
  | nil => exact absurd rfl hrest
  | append_singleton rest n ih =>
      have hparent := t.closed _ h
      rw [← List.append_assoc, List.dropLast_concat] at hparent
      rcases hparent with hnil | hdir
      · exact absurd (List.append_eq_nil_iff.mp hnil).1 hp
      · by_cases hlast : rest = []
        · rw [hlast, List.append_nil] at hdir
          exact (isdir_iff t hp).mpr hdir
        · exact ih hlast hdir

theorem read_eq_ok_iff (t : Tree) (p : Path) (bytes : List UInt8) :
    t.read p = .ok bytes ↔ t.find? p = some (.file bytes) := by
  unfold Tree.read
  split
  · next b hb => rw [hb]; simp
  all_goals simp_all

def entryBelow (base : Path) (e : Path × Entry) : Option (Path × Entry) :=
  if base <+: e.1 ∧ e.1 ≠ base then some (e.1.drop base.length, e.2) else none

theorem entryBelow_eq_some {base p : Path} {e : Entry} {x : Path × Entry} :
    entryBelow base x = some (p, e) ↔ p ≠ [] ∧ x = (base ++ p, e) := by
  obtain ⟨q, e'⟩ := x
  unfold entryBelow
  constructor
  · intro h
    split at h
    · next hq =>
        obtain ⟨⟨rest, rfl⟩, hne⟩ := hq
        rw [List.drop_left] at h
        obtain ⟨rfl, rfl⟩ := Prod.mk.inj (Option.some.inj h)
        exact ⟨fun hnil => hne (by simp [hnil]), rfl⟩
    · cases h
  · intro h
    obtain ⟨hp, h⟩ := h
    obtain ⟨rfl, rfl⟩ := Prod.mk.inj h
    rw [if_pos ⟨List.prefix_append _ _, by simpa using hp⟩, List.drop_left]

theorem mem_filterMap_entryBelow {t : Tree} {base p : Path} {e : Entry} :
    (p, e) ∈ t.entries.filterMap (entryBelow base) ↔ p ≠ [] ∧ (base ++ p, e) ∈ t.entries := by
  simp only [List.mem_filterMap, entryBelow_eq_some]
  constructor
  · intro h
    obtain ⟨_, hmem, hp, rfl⟩ := h
    exact ⟨hp, hmem⟩
  · exact fun h => ⟨_, h.2, h.1, rfl⟩

/-- What the tree has below a directory, as a tree of its own. -/
def Tree.below (t : Tree) (base : Path) : Tree where
  entries := t.entries.filterMap (entryBelow base)
  nodup := by
    refine List.Nodup.map_on ?_ ?_
    · rintro ⟨p, e⟩ h ⟨p', e'⟩ h' (rfl : p = p')
      obtain ⟨-, h⟩ := mem_filterMap_entryBelow.mp h
      obtain ⟨-, h'⟩ := mem_filterMap_entryBelow.mp h'
      exact congrArg (Prod.mk p) (congrArg Prod.snd (List.inj_on_of_nodup_map t.nodup h h' rfl))
    · refine (List.Nodup.of_map _ t.nodup).filterMap fun x y z hx hy => ?_
      obtain ⟨p, e⟩ := z
      exact (entryBelow_eq_some.mp hx).2.trans (entryBelow_eq_some.mp hy).2.symm
  plain e he := by
    obtain ⟨hne, hmem⟩ := mem_filterMap_entryBelow.mp he
    exact ⟨hne, fun n hn => (t.plain _ hmem).2 n (List.mem_append_right _ hn)⟩
  closed e he := by
    obtain ⟨hne, hmem⟩ := mem_filterMap_entryBelow.mp he
    by_cases hnil : e.1.dropLast = []
    · exact Or.inl hnil
    refine Or.inr (mem_filterMap_entryBelow.mpr ⟨hnil, ?_⟩)
    have hparent := t.closed _ hmem
    rw [List.dropLast_append_of_ne_nil hne] at hparent
    exact hparent.resolve_left fun h => hnil (List.append_eq_nil_iff.mp h).2

/-- The directory a path leads to from `base`, each step of it looked up. -/
def Tree.opendir (t : Tree) (base : Path) : List Str → Option Path
  | [] => some base
  | s :: rest => if t.isdir (step base s) then t.opendir (step base s) rest else none

theorem childOf_eq_some (dir : Path) (e : Path × Entry) (n : Name) :
    childOf dir e = some n ↔ e.1 = dir ++ [n] := by
  unfold childOf
  constructor
  · intro h
    split at h
    · next hdir =>
        obtain ⟨init, hinit⟩ := List.getLast?_eq_some_iff.mp h
        rw [hinit, List.dropLast_concat] at hdir
        rw [hinit, hdir]
    · cases h
  · intro h
    rw [h]
    simp

theorem mem_listdir (t : Tree) (dir : Path) (n : Name) :
    n ∈ t.listdir dir ↔ ∃ e, (dir ++ [n], e) ∈ t.entries := by
  simp only [Tree.listdir, List.mem_filterMap, childOf_eq_some]
  constructor
  · intro h
    obtain ⟨⟨q, e⟩, he, hq⟩ := h
    obtain rfl : q = dir ++ [n] := hq
    exact ⟨e, he⟩
  · rintro ⟨e, he⟩; exact ⟨_, he, rfl⟩

theorem mem_filesIn (t : Tree) (dir : Path) (n : Name) :
    n ∈ t.filesIn dir ↔ ∃ e, (dir ++ [n], e) ∈ t.entries ∧ e ≠ .dir := by
  simp only [Tree.filesIn, List.mem_filterMap, childOf_eq_some, List.mem_filter]
  constructor
  · intro h
    obtain ⟨⟨q, e⟩, ⟨he, hne⟩, hq⟩ := h
    obtain rfl : q = dir ++ [n] := hq
    exact ⟨e, he, by simpa using hne⟩
  · rintro ⟨e, he, hne⟩; exact ⟨_, ⟨he, by simpa using hne⟩, rfl⟩

theorem nodup_listdir (t : Tree) (dir : Path) : (t.listdir dir).Nodup := by
  have main : ∀ l : List (Path × Entry), (l.map Prod.fst).Nodup →
      (l.filterMap (childOf dir)).Nodup := by
    intro l
    induction l with
    | nil => simp
    | cons x rest ih =>
        intro hl
        rw [List.map_cons, List.nodup_cons] at hl
        rw [List.filterMap_cons]
        split
        · exact ih hl.2
        · next n hn =>
            refine List.nodup_cons.mpr ⟨?_, ih hl.2⟩
            intro hmem
            obtain ⟨y, hy, hyn⟩ := List.mem_filterMap.mp hmem
            rw [childOf_eq_some] at hn hyn
            exact hl.1 (List.mem_map.mpr ⟨y, hy, hyn.trans hn.symm⟩)
  exact main t.entries t.nodup

/-- The walk from `top` meets every file below it, and nothing else. -/
theorem mem_walk (t : Tree) (top cur : Path) (n : Name) :
    (∃ files, (cur, files) ∈ t.walk top ∧ n ∈ files) ↔
      top <+: cur ∧ t.isdir top = true ∧ ∃ e, (cur ++ [n], e) ∈ t.entries ∧ e ≠ .dir := by
  unfold Tree.walk
  by_cases htop : t.isdir top = true
  · simp only [htop, if_true, List.map_cons, List.mem_cons, List.mem_map, Prod.mk.injEq, true_and]
    constructor
    · intro h
      obtain ⟨files, ⟨rfl, rfl⟩ | ⟨d, hd, rfl, rfl⟩, hn⟩ := h
      · exact ⟨List.prefix_rfl, (mem_filesIn t _ _).mp hn⟩
      · simp only [Tree.dirsBelow, List.mem_map, List.mem_filter, decide_eq_true_eq] at hd
        obtain ⟨e, ⟨_, _, hpre, _⟩, rfl⟩ := hd
        exact ⟨hpre, (mem_filesIn t _ _).mp hn⟩
    · intro h
      obtain ⟨hpre, hfile⟩ := h
      refine ⟨t.filesIn cur, ?_, (mem_filesIn t _ _).mpr hfile⟩
      by_cases hcur : cur = top
      · exact Or.inl ⟨hcur, by rw [hcur]⟩
      · obtain ⟨e, he, _⟩ := hfile
        have hparent := t.closed _ he
        rw [List.dropLast_concat] at hparent
        rcases hparent with hnil | hdir
        · exact absurd (hnil ▸ List.prefix_nil.mp (hnil ▸ hpre)).symm (by simpa [hnil] using hcur)
        · refine Or.inr ⟨cur, ?_, rfl, rfl⟩
          simp only [Tree.dirsBelow, List.mem_map, List.mem_filter, decide_eq_true_eq]
          exact ⟨_, ⟨hdir, rfl, hpre, hcur⟩, rfl⟩
  · simp [htop]

section Order
variable {t t' : Tree} (h : t.entries.Perm t'.entries)
include h

theorem find?_perm (p : Path) : t.find? p = t'.find? p := by
  by_cases hp : p = []
  · subst hp
    rfl
  · ext e
    rw [find?_eq_some_iff t hp, find?_eq_some_iff t' hp]
    exact h.mem_iff

theorem isdir_perm (p : Path) : t.isdir p = t'.isdir p := by
  rw [Tree.isdir, Tree.isdir, find?_perm h]

theorem exists_perm (p : Path) : t.exists p = t'.exists p := by
  rw [Tree.exists, Tree.exists, find?_perm h]

theorem read_perm (p : Path) : t.read p = t'.read p := by
  rw [Tree.read, Tree.read, find?_perm h]

theorem listdir_perm (dir : Path) : (t.listdir dir).Perm (t'.listdir dir) := h.filterMap _

theorem filesIn_perm (dir : Path) : (t.filesIn dir).Perm (t'.filesIn dir) := (h.filter _).filterMap _

theorem walk_flatMap_perm {β : Type} (top : Path) {f g : Path × List Name → List β}
    (hfg : ∀ cur fs fs', fs.Perm fs' → (f (cur, fs)).Perm (g (cur, fs'))) :
    ((t.walk top).flatMap f).Perm ((t'.walk top).flatMap g) := by
  unfold Tree.walk
  rw [isdir_perm h]
  split
  · rw [List.flatMap_map, List.flatMap_map]
    have hdirs : (top :: t.dirsBelow top).Perm (top :: t'.dirsBelow top) :=
      ((h.filter _).map _).cons top
    exact hdirs.flatMap fun cur _ => hfg cur _ _ (filesIn_perm h cur)
  · exact List.Perm.refl _

end Order

inductive PyError
  | os (e : OSError)
  | unicodeDecode
  | value
deriving DecidableEq

def textOf : Except OSError (List UInt8) → Except PyError Str
  | .ok bytes =>
    match decode bytes with
    | some s => .ok s
    | none => .error .unicodeDecode
  | .error e => .error (.os e)

/-- `open(p, encoding="utf-8").read()`. -/
def readStrict (t : Tree) (p : Path) : Except PyError Str := textOf (t.read p)

/-- `open(p, encoding="utf-8", errors="ignore").read()`. -/
def readIgnore (t : Tree) (p : Path) : Except PyError Str :=
  match t.read p with
  | .ok bytes => .ok (decodeIgnore bytes)
  | .error e => .error (.os e)

theorem readStrict_perm {t t' : Tree} (h : t.entries.Perm t'.entries) (p : Path) :
    readStrict t p = readStrict t' p := by
  rw [readStrict, readStrict, read_perm h]

theorem readIgnore_perm {t t' : Tree} (h : t.entries.Perm t'.entries) (p : Path) :
    readIgnore t p = readIgnore t' p := by
  rw [readIgnore, readIgnore, read_perm h]

theorem textOf_eq_ok (r : Except OSError (List UInt8)) (text : Str) :
    textOf r = .ok text ↔ ∃ bytes, r = .ok bytes ∧ decode bytes = some text := by
  cases r with
  | error e => simp [textOf]
  | ok bytes => cases h : decode bytes <;> simp [textOf, h]

theorem readStrict_eq_ok (t : Tree) (p : Path) (text : Str) :
    readStrict t p = .ok text ↔ ∃ bytes, t.read p = .ok bytes ∧ decode bytes = some text :=
  textOf_eq_ok ..

theorem readIgnore_eq_ok (t : Tree) (p : Path) (body : Str) :
    readIgnore t p = .ok body ↔ ∃ bytes, t.read p = .ok bytes ∧ decodeIgnore bytes = body := by
  unfold readIgnore
  cases t.read p <;> simp

/-! ## Writing -/

structure Vacant (t : Tree) (p : Path) : Prop where
  fresh : t.find? p = none
  plain : ∀ n ∈ p, Plain n
  parent : t.isdir p.dropLast = true

instance (t : Tree) (p : Path) : Decidable (Vacant t p) :=
  decidable_of_iff (t.find? p = none ∧ (∀ n ∈ p, Plain n) ∧ t.isdir p.dropLast = true)
    ⟨fun h => ⟨h.1, h.2.1, h.2.2⟩, fun h => ⟨h.1, h.2, h.3⟩⟩

theorem Vacant.ne_nil {t : Tree} {p : Path} (h : Vacant t p) : p ≠ [] := by
  intro h
  subst h
  simpa [Tree.find?] using h.fresh

def Tree.insert (t : Tree) (p : Path) (e : Entry) (h : Vacant t p) : Tree where
  entries := t.entries ++ [(p, e)]
  nodup := by
    rw [List.map_append]
    refine t.nodup.append (List.nodup_singleton _) ?_
    intro q hq hp
    simp only [List.map_cons, List.map_nil, List.mem_singleton] at hp
    obtain ⟨⟨q', e'⟩, he, rfl⟩ := List.mem_map.mp hq
    have hfound := (find?_eq_some_iff t (t.plain _ he).1 e').mpr he
    simp only at hp hfound
    rw [hp, h.fresh] at hfound
    cases hfound
  plain := by
    intro x hx
    rcases List.mem_append.mp hx with hx | hx
    · exact t.plain x hx
    · rw [List.mem_singleton] at hx
      subst hx
      exact ⟨h.ne_nil, h.plain⟩
  closed := by
    intro x hx
    rcases List.mem_append.mp hx with hx | hx
    · exact (t.closed x hx).imp id (List.mem_append_left _)
    · rw [List.mem_singleton] at hx
      subst hx
      by_cases hnil : p.dropLast = []
      · exact Or.inl hnil
      · exact Or.inr (List.mem_append_left _ ((isdir_iff t hnil).mp h.parent))

def overwrite (p : Path) (bytes : List UInt8) (e : Path × Entry) : Path × Entry :=
  if e.1 = p ∧ e.2 ≠ .dir then (p, .file bytes) else e

theorem overwrite_fst (p : Path) (bytes : List UInt8) (e : Path × Entry) :
    (overwrite p bytes e).1 = e.1 := by
  unfold overwrite
  split
  · next h => exact h.1.symm
  · rfl

theorem overwrite_dir (p q : Path) (bytes : List UInt8) :
    overwrite p bytes (q, .dir) = (q, .dir) := by
  simp [overwrite]

def Tree.update (t : Tree) (p : Path) (bytes : List UInt8) : Tree where
  entries := t.entries.map (overwrite p bytes)
  nodup := by
    have : (t.entries.map (overwrite p bytes)).map Prod.fst = t.entries.map Prod.fst := by
      rw [List.map_map]
      exact List.map_congr_left fun e _ => overwrite_fst p bytes e
    rw [this]
    exact t.nodup
  plain := by
    intro x hx
    obtain ⟨e, he, rfl⟩ := List.mem_map.mp hx
    rw [overwrite_fst]
    exact t.plain e he
  closed := by
    intro x hx
    obtain ⟨e, he, rfl⟩ := List.mem_map.mp hx
    rw [overwrite_fst]
    refine (t.closed e he).imp id fun h => ?_
    exact List.mem_map.mpr ⟨_, h, overwrite_dir ..⟩

/-- Creates the file or replaces its contents; a dangling link is written through. -/
def Tree.write (t : Tree) (p : Path) (bytes : List UInt8) : Except OSError Tree :=
  match t.find? p with
  | some .dir => .error .isDirectory
  | some .denied => .error .permission
  | some _ => .ok (t.update p bytes)
  | none => if h : Vacant t p then .ok (t.insert p (.file bytes) h) else .error .notFound

def Tree.mkdir (t : Tree) (p : Path) : Except OSError Tree :=
  match t.find? p with
  | some .dir => .ok t
  | some _ => .error .notDirectory
  | none => if h : Vacant t p then .ok (t.insert p .dir h) else .error .notFound

/-- Creates the directory and what is missing above it. -/
def Tree.mkdirs (t : Tree) (p : Path) : Except OSError Tree :=
  (p.inits.filter (· ≠ [])).foldlM Tree.mkdir t

@[simp] theorem find?_nil (t : Tree) : t.find? [] = some .dir := rfl

theorem find?_insert (t : Tree) {p : Path} (e : Entry) (h : Vacant t p) (q : Path) :
    (t.insert p e h).find? q = if q = p then some e else t.find? q := by
  by_cases hq : q = []
  · subst hq
    rw [if_neg (Ne.symm h.ne_nil)]
    rfl
  · ext x
    rw [find?_eq_some_iff _ hq]
    simp only [Tree.insert, List.mem_append, List.mem_singleton, Prod.mk.injEq]
    by_cases hqp : q = p
    · subst hqp
      have hnone : (q, x) ∉ t.entries := by
        rw [← find?_eq_some_iff t hq, h.fresh]
        simp
      simp [hnone, eq_comm]
    · simp [hqp, find?_eq_some_iff t hq]

theorem find?_update (t : Tree) (p : Path) (bytes : List UInt8) (q : Path) :
    (t.update p bytes).find? q =
      if q = p ∧ t.find? q ≠ none ∧ t.find? q ≠ some .dir then some (.file bytes) else t.find? q := by
  by_cases hq : q = []
  · subst hq; simp
  · ext x
    rw [find?_eq_some_iff _ hq]
    simp only [Tree.update, List.mem_map, overwrite]
    constructor
    · intro h
      obtain ⟨⟨q', e⟩, he, hx⟩ := h
      have hfind := (find?_eq_some_iff t (t.plain _ he).1 e).mpr he
      simp only at hfind hx
      split at hx
      · next h =>
          simp only [Prod.mk.injEq] at hx
          obtain ⟨rfl, rfl⟩ := hx
          obtain ⟨rfl, hdir⟩ := h
          rw [if_pos ⟨rfl, by simp [hfind], by simpa [hfind] using hdir⟩]
      · next h =>
          simp only [Prod.mk.injEq] at hx
          obtain ⟨rfl, rfl⟩ := hx
          rw [if_neg, hfind]
          intro h
          obtain ⟨hqp, _, hdir⟩ := h
          exact h ⟨hqp, by simpa [hfind] using hdir⟩
    · intro hx
      split at hx
      · next h =>
          obtain ⟨rfl, hnone, hdir⟩ := h
          obtain ⟨e, he⟩ := Option.ne_none_iff_exists'.mp hnone
          refine ⟨(q, e), (find?_eq_some_iff t hq e).mp he, ?_⟩
          rw [he] at hdir
          rw [if_pos ⟨rfl, by simpa using hdir⟩, Option.some.inj hx]
      · next h =>
          refine ⟨(q, x), (find?_eq_some_iff t hq x).mp hx, ?_⟩
          rw [if_neg]
          intro h
          obtain ⟨rfl, hdir⟩ := h
          exact h ⟨rfl, by simp [hx], by simpa [hx] using hdir⟩

theorem find?_write {t t' : Tree} {p : Path} {bytes : List UInt8} (h : t.write p bytes = .ok t')
    (q : Path) : t'.find? q = if q = p then some (.file bytes) else t.find? q := by
  have hupdate : ∀ e, t.find? p = some e → e ≠ .dir → t.update p bytes = t' →
      t'.find? q = if q = p then some (.file bytes) else t.find? q := by
    rintro e he hdir rfl
    rw [find?_update]
    by_cases hq : q = p
    · subst hq
      rw [if_pos ⟨rfl, by simp [he], by simpa [he] using hdir⟩, if_pos rfl]
    · rw [if_neg fun hc => hq hc.1, if_neg hq]
  unfold Tree.write at h
  split at h
  · cases h
  · cases h
  · next e hdir hdenied he => exact hupdate e he (fun e' => hdir e') (Except.ok.inj h)
  · next he =>
      split at h
      · next hv =>
          rw [← Except.ok.inj h, find?_insert]
      · cases h

theorem write_over_file {t : Tree} {p : Path} {old : List UInt8} (h : t.find? p = some (.file old))
    (bytes : List UInt8) : ∃ t', t.write p bytes = .ok t' := by
  rw [Tree.write, h]
  exact ⟨_, rfl⟩

theorem mkdir_cases {t t' : Tree} {p : Path} (h : t.mkdir p = .ok t') :
    t' = t ∨ ∃ hv : Vacant t p, t' = t.insert p .dir hv := by
  unfold Tree.mkdir at h
  split at h
  · exact Or.inl (Except.ok.inj h).symm
  · cases h
  · split at h
    · next hv => exact Or.inr ⟨hv, (Except.ok.inj h).symm⟩
    · cases h

/-- What every new directory on the way keeps is kept. -/
theorem mkdirs_induct {P : Tree → Prop} {t t' : Tree} {p : Path} (h : t.mkdirs p = .ok t') (ht : P t)
    (step : ∀ t q (hv : Vacant t q), q <+: p → P t → P (t.insert q .dir hv)) : P t' := by
  have main : ∀ (qs : List Path), (∀ q ∈ qs, q <+: p) → ∀ t, P t → qs.foldlM Tree.mkdir t = .ok t' →
      P t' := by
    intro qs
    induction qs with
    | nil =>
        intro _ t ht hfold
        rwa [← Except.ok.inj (show Except.ok t = Except.ok t' from hfold)]
    | cons q rest ih =>
        intro hqs t ht hfold
        obtain ⟨hq, hrest⟩ := List.forall_mem_cons.mp hqs
        rw [List.foldlM_cons] at hfold
        cases hmk : t.mkdir q with
        | error e => rw [hmk] at hfold; cases hfold
        | ok t₁ =>
            rw [hmk] at hfold
            refine ih hrest t₁ ?_ hfold
            rcases mkdir_cases hmk with rfl | ⟨hv, rfl⟩
            · exact ht
            · exact step t q hv hq ht
  refine main _ (fun q hq => ?_) t ht h
  exact (List.mem_inits q p).mp (List.mem_filter.mp hq).1

theorem mkdir_of_isdir {t : Tree} {p : Path} (h : t.isdir p = true) : t.mkdir p = .ok t := by
  rw [Tree.isdir, beq_iff_eq] at h
  rw [Tree.mkdir, h]

theorem isdir_of_mkdir {t t' : Tree} {p : Path} (h : t.mkdir p = .ok t') (q : Path)
    (hq : q = p ∨ t.isdir q = true) : t'.isdir q = true := by
  rcases mkdir_cases h with rfl | ⟨hv, rfl⟩
  · rcases hq with rfl | hq
    · unfold Tree.mkdir at h
      split at h
      · next hdir => rw [Tree.isdir, hdir]; rfl
      · cases h
      · next hnone =>
          split at h
          · next hv =>
              have hfound := congrArg (fun t : Tree => t.find? q) (Except.ok.inj h)
              simp only [find?_insert, hnone, if_true] at hfound
              cases hfound
          · cases h
    · exact hq
  · rw [Tree.isdir, find?_insert]
    split
    · rfl
    · next hne => exact hq.resolve_left hne

theorem mkdirs_of_isdir {t : Tree} {p : Path} (h : ∀ q, q <+: p → t.isdir q = true) :
    t.mkdirs p = .ok t := by
  have main : ∀ qs : List Path, (∀ q ∈ qs, t.isdir q = true) → qs.foldlM Tree.mkdir t = .ok t := by
    intro qs
    induction qs with
    | nil => intro _; rfl
    | cons q rest ih =>
        intro hqs
        obtain ⟨hq, hrest⟩ := List.forall_mem_cons.mp hqs
        rw [List.foldlM_cons, mkdir_of_isdir hq]
        exact ih hrest
  refine main _ fun q hq => ?_
  exact h q ((List.mem_inits q p).mp (List.mem_filter.mp hq).1)

theorem isdir_of_mkdirs {t t' : Tree} {p : Path} (h : t.mkdirs p = .ok t') :
    ∀ q, q <+: p → t'.isdir q = true := by
  have main : ∀ (qs : List Path) (t : Tree), qs.foldlM Tree.mkdir t = .ok t' →
      ∀ q, q ∈ qs ∨ t.isdir q = true → t'.isdir q = true := by
    intro qs
    induction qs with
    | nil =>
        intro t hfold q hq
        rw [← Except.ok.inj (show Except.ok t = Except.ok t' from hfold)]
        exact hq.resolve_left List.not_mem_nil
    | cons p rest ih =>
        intro t hfold q hq
        rw [List.foldlM_cons] at hfold
        cases hmk : t.mkdir p with
        | error e => rw [hmk] at hfold; cases hfold
        | ok t₁ =>
            rw [hmk] at hfold
            refine ih t₁ hfold q ?_
            rcases hq with hq | hq
            · rcases List.mem_cons.mp hq with hq | hq
              · exact Or.inr (isdir_of_mkdir hmk q (Or.inl hq))
              · exact Or.inl hq
            · exact Or.inr (isdir_of_mkdir hmk q (Or.inr hq))
  intro q hq
  by_cases hnil : q = []
  · subst hnil
    rfl
  · refine main _ t h q (Or.inl (List.mem_filter.mpr ⟨(List.mem_inits q p).mpr hq, ?_⟩))
    simpa using hnil

/-- A call that has made some of its directories is taken up where it stopped. -/
theorem mkdirs_resume {t t' : Tree} {q p : Path} (h : t.mkdirs q = .ok t') (hq : q <+: p) :
    t'.mkdirs p = t.mkdirs p := by
  obtain ⟨rest, rfl⟩ := hq
  have hsame := mkdirs_of_isdir (isdir_of_mkdirs h)
  unfold Tree.mkdirs at h hsame ⊢
  rw [List.inits_append, List.filter_append, List.foldlM_append, List.foldlM_append, h, hsame]

end FileTree
