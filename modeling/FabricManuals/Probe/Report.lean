import FabricManuals.Lib.SampleBuffer

/-! # What the probes report

`cmp_u64`, `qsort` and the `report` of each program.  `value` is the number in a
cell; a sample may carry more, which no program reads. -/
set_option autoImplicit false

namespace Report

open SampleBuffer

/-- The comparator of all four C programs; `wire.c` and `pointget.c` call it `cmp`. -/
def cmp_u64 (x y : UInt64) : Int := (if x > y then 1 else 0) - (if x < y then 1 else 0)

def qsort {α : Type} (value : α → UInt64) (s : Cells α) (n : Nat) : Option (Cells α) :=
  sortFirst (fun x y => cmp_u64 (value x) (value y) ≤ 0) s n

/-- `(int)(n * 0.99)`; below `2^31` the product is never rounded up to the next integer. -/
def p99Index (n : Nat) : Nat := n * 99 / 100

theorem p99Index_lt {n : Nat} (h : 0 < n) : p99Index n < n := by
  rw [p99Index]
  omega

def inOrder {α : Type} (value : α → UInt64) (xs : List α) : List α :=
  xs.mergeSort fun x y => cmp_u64 (value x) (value y) ≤ 0

theorem inOrder_perm {α : Type} (value : α → UInt64) (xs : List α) : (inOrder value xs).Perm xs :=
  List.mergeSort_perm xs _

theorem qsort_of_holds {α : Type} (value : α → UInt64) {s : Cells α} {xs : List α}
    (h : Holds s xs) :
    ∃ s', qsort value s xs.length = some s' ∧ Holds s' (inOrder value xs) ∧ s'.length = s.length := by
  have hload := loadFirst_eq_some_iff.mpr ⟨h, rfl⟩
  have hsort : qsort value s xs.length = some _ := sortFirst_eq_some_iff.mpr ⟨xs, hload, rfl⟩
  exact ⟨_, hsort, List.prefix_append _ _, length_sortFirst hsort⟩

theorem inOrder_getElem? {α : Type} (value : α → UInt64) {xs : List α} {i : Nat} (hi : i < xs.length) :
    ∃ x ∈ xs, (inOrder value xs)[i]? = some x := by
  have hlt : i < (inOrder value xs).length := (inOrder_perm value xs).length_eq ▸ hi
  exact ⟨_, (inOrder_perm value xs).mem_iff.mp (List.getElem_mem hlt), List.getElem?_eq_getElem hlt⟩

end Report

namespace Probe

open SampleBuffer Report

variable {α : Type} (value : α → UInt64)

structure Line (α : Type) where
  name : String
  median : α
  p99 : α
  min : α

/-- `none` when the numbers depend on cells the program never wrote. -/
def report (name : String) (s : Cells α) (n : Nat) : Option (Line α × Cells α) := do
  let s ← qsort value s n
  let median ← load s (n / 2)
  let p99 ← load s (p99Index n)
  let min ← load s 0
  pure (⟨name, median, p99, min⟩, s)

theorem report_eq (name : String) {s : Cells α} {xs : List α} (h : Holds s xs) {median p99 min : α}
    (hmedian : (inOrder value xs)[xs.length / 2]? = some median)
    (hp99 : (inOrder value xs)[p99Index xs.length]? = some p99)
    (hmin : (inOrder value xs)[0]? = some min) :
    ∃ s', report value name s xs.length = some (⟨name, median, p99, min⟩, s') := by
  obtain ⟨s', hsort, hys, -⟩ := qsort_of_holds value h
  have hloadMedian := load_of_holds hys hmedian
  have hloadP99 := load_of_holds hys hp99
  have hloadMin := load_of_holds hys hmin
  exact ⟨s', by simp [report, hsort, hloadMedian, hloadP99, hloadMin]⟩

theorem report_of_holds (name : String) {s : Cells α} {xs : List α} (h : Holds s xs)
    (hpos : 0 < xs.length) :
    ∃ line s', report value name s xs.length = some (line, s') ∧
      line.median ∈ xs ∧ line.p99 ∈ xs ∧ line.min ∈ xs := by
  obtain ⟨median, hmedian, hatMedian⟩ := inOrder_getElem? value (Nat.div_lt_self hpos Nat.one_lt_two)
  obtain ⟨p99, hp99, hatP99⟩ := inOrder_getElem? value (p99Index_lt hpos)
  obtain ⟨min, hmin, hatMin⟩ := inOrder_getElem? value hpos
  obtain ⟨s', hreport⟩ := report_eq value name h hatMedian hatP99 hatMin
  exact ⟨⟨name, median, p99, min⟩, s', hreport, hmedian, hp99, hmin⟩

variable {value}

/-- `s[0]` is read whatever the count. -/
theorem report_empty (name : String) : report value name [] 0 = none := by
  simp [report, qsort, sortFirst, loadFirst, load]

end Probe

namespace Fdb

open SampleBuffer Report

variable {α : Type} (value : α → UInt64)

inductive Line (α : Type)
  | noData (name : String)
  | quantiles (name : String) (median p99 : α) (n : Nat)

/-- `rep` of `pointget.c`. -/
def rep (name : String) (s : Cells α) (c : Nat) : Option (Line α × Cells α) := do
  let s ← qsort value s c
  let median ← load s (c / 2)
  let p99 ← load s (p99Index c)
  pure (.quantiles name median p99 c, s)

/-- `report` of `fdbpub.c`. -/
def report (name : String) (s : Cells α) (c : Nat) : Option (Line α × Cells α) :=
  if c ≤ 0 then some (.noData name, s) else rep value name s c

theorem rep_eq (name : String) {s : Cells α} {xs : List α} (h : Holds s xs) {median p99 : α}
    (hmedian : (inOrder value xs)[xs.length / 2]? = some median)
    (hp99 : (inOrder value xs)[p99Index xs.length]? = some p99) :
    ∃ s', rep value name s xs.length = some (.quantiles name median p99 xs.length, s') ∧
      s'.length = s.length := by
  obtain ⟨s', hsort, hys, hlen⟩ := qsort_of_holds value h
  have hloadMedian := load_of_holds hys hmedian
  have hloadP99 := load_of_holds hys hp99
  exact ⟨s', by simp [rep, hsort, hloadMedian, hloadP99], hlen⟩

variable {value}

theorem rep_of_holds (name : String) {s : Cells α} {xs : List α} (h : Holds s xs)
    (hpos : 0 < xs.length) :
    ∃ line s', rep value name s xs.length = some (line, s') ∧ s'.length = s.length := by
  obtain ⟨median, -, hatMedian⟩ := inOrder_getElem? value (Nat.div_lt_self hpos Nat.one_lt_two)
  obtain ⟨p99, -, hatP99⟩ := inOrder_getElem? value (p99Index_lt hpos)
  obtain ⟨s', hrep, hlen⟩ := rep_eq value name h hatMedian hatP99
  exact ⟨.quantiles name median p99 xs.length, s', hrep, hlen⟩

theorem report_of_holds (name : String) {s : Cells α} {xs : List α} (h : Holds s xs) :
    ∃ line s', report value name s xs.length = some (line, s') ∧ s'.length = s.length := by
  rcases Nat.eq_zero_or_pos xs.length with hzero | hpos
  · exact ⟨.noData name, s, by rw [report, if_pos (by omega)], rfl⟩
  · rw [report, if_neg (by omega)]
    exact rep_of_holds name h hpos

end Fdb

namespace Wire

open SampleBuffer Report

variable {α : Type} (value : α → UInt64)

/-- The rates the line shows are computed from `bytes` and `frames`. -/
structure Line (α : Type) where
  name : String
  bytes : Nat
  frames : Int
  median : α

def report (name : String) (s : Cells α) (n : Nat) (bytes : Nat) (frames : Int) :
    Option (Line α × Cells α) := do
  let s ← qsort value s n
  let median ← load s (n / 2)
  pure (⟨name, bytes, frames, median⟩, s)

theorem report_eq (name : String) {s : Cells α} {xs : List α} (h : Holds s xs) (bytes : Nat) (frames : Int)
    {median : α} (hmedian : (inOrder value xs)[xs.length / 2]? = some median) :
    ∃ s', report value name s xs.length bytes frames = some (⟨name, bytes, frames, median⟩, s') := by
  obtain ⟨s', hsort, hys, -⟩ := qsort_of_holds value h
  have hloadMedian := load_of_holds hys hmedian
  exact ⟨s', by simp [report, hsort, hloadMedian]⟩

end Wire

namespace Rollback

open Report

/-- `std::sort(s.begin(), s.end())`, whose comparator is `<`. -/
def sort (s : List UInt64) : List UInt64 := s.mergeSort fun x y => !decide (y < x)

/-- The vector holds what was pushed onto it, so `none` is an index past its end. -/
def report (name : String) (s : List UInt64) : Option (Fdb.Line UInt64 × List UInt64) :=
  if s = [] then some (.noData name, s)
  else do
    let s := sort s
    let median ← s[s.length / 2]?
    let p99 ← s[p99Index s.length]?
    pure (.quantiles name median p99 s.length, s)

end Rollback
