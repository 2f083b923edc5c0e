import FabricManuals.Lib.OrderStatistics
import FabricManuals.Probe.Report

/-! # The statistics the probes report

Every program sorts its samples with code of its own and reads one, two or three of the
elements.  They stand at the places of the minimum, the median and the 99th percentile,
and a statistic is the same number whichever program reports it. -/
set_option autoImplicit false

namespace Report

open SampleBuffer OrderStatistics

instance isLinearOrder_le : IsLinearOrder UInt64 (· ≤ ·) where

/-- What `qsort` asks of a comparator, for a total order of all the values. -/
structure IsComparator (cmp : UInt64 → UInt64 → Int) : Prop where
  linear : IsLinearOrder UInt64 fun x y => cmp x y ≤ 0
  swap : ∀ x y, cmp y x = -cmp x y

theorem cmp_u64_le_iff (x y : UInt64) : cmp_u64 x y ≤ 0 ↔ x ≤ y := by
  rw [cmp_u64, ← UInt64.not_lt]
  by_cases hgt : y < x
  · have hlt : ¬ x < y := UInt64.lt_asymm hgt
    simp [hgt, hlt]
  · simp only [hgt, if_false, not_false_iff, iff_true]
    split <;> decide

theorem isComparator_cmp_u64 : IsComparator cmp_u64 where
  linear := by
    have hle : (fun x y => cmp_u64 x y ≤ 0) = fun x y => x ≤ y := by
      funext x y
      exact propext (cmp_u64_le_iff x y)
    rw [hle]
    infer_instance
  swap x y := by
    simp only [cmp_u64, gt_iff_lt]
    omega

theorem isLinearOrder_not_lt : IsLinearOrder UInt64 fun x y => ¬ y < x := by
  have hle : (fun x y : UInt64 => ¬ y < x) = fun x y => x ≤ y := by
    funext x y
    exact propext UInt64.not_lt
  rw [hle]
  infer_instance

theorem inOrder_id (xs : List UInt64) : inOrder id xs = ranked (· ≤ ·) xs := by
  have hle : (fun x y => decide (cmp_u64 x y ≤ 0)) = fun x y => decide (x ≤ y) := by
    funext x y
    exact decide_eq_decide.mpr (cmp_u64_le_iff x y)
  exact congrArg (fun le => xs.mergeSort le) hle

theorem sort_eq (xs : List UInt64) : Rollback.sort xs = ranked (· ≤ ·) xs := by
  have hle : (fun x y : UInt64 => !decide (y < x)) = fun x y => decide (x ≤ y) := by
    funext x y
    rw [← decide_not]
    exact decide_eq_decide.mpr UInt64.not_lt
  exact congrArg (fun le => xs.mergeSort le) hle

structure Figures where
  min : UInt64
  median : UInt64
  p99 : UInt64

structure Describes (f : Figures) (xs : List UInt64) : Prop where
  median : IsQuantile (· ≤ ·) 1 2 xs f.median
  p99 : IsQuantile (· ≤ ·) 99 100 xs f.p99
  min : f.min ∈ xs ∧ ∀ x ∈ xs, f.min ≤ x
  ordered : f.min ≤ f.median ∧ f.median ≤ f.p99

/-- Given the samples, every program reports these of the figures: from a buffer that
begins with the samples, and from a vector of them. -/
structure Reported (f : Figures) (xs : List UInt64) : Prop where
  probe : ∀ name s, Holds s xs → ∃ s',
    Probe.report id name s xs.length = some (⟨name, f.median, f.p99, f.min⟩, s')
  fdbpub : ∀ name s, Holds s xs → ∃ s',
    Fdb.report id name s xs.length = some (.quantiles name f.median f.p99 xs.length, s')
  pointget : ∀ name s, Holds s xs → ∃ s',
    Fdb.rep id name s xs.length = some (.quantiles name f.median f.p99 xs.length, s')
  wire : ∀ name s bytes frames, Holds s xs → ∃ s',
    Wire.report id name s xs.length bytes frames = some (⟨name, bytes, frames, f.median⟩, s')
  rollback : ∀ name, ∃ s',
    Rollback.report name xs = some (.quantiles name f.median f.p99 xs.length, s')

theorem reported_of_ranked {f : Figures} {xs : List UInt64} (h : xs ≠ [])
    (hmin : (ranked (· ≤ ·) xs)[0]? = some f.min)
    (hmedian : (ranked (· ≤ ·) xs)[xs.length / 2]? = some f.median)
    (hp99 : (ranked (· ≤ ·) xs)[p99Index xs.length]? = some f.p99) : Reported f xs := by
  have hpos : ¬ xs.length ≤ 0 := by simpa using h
  have hrep : ∀ name s, Holds s xs → ∃ s',
      Fdb.rep id name s xs.length = some (.quantiles name f.median f.p99 xs.length, s') := by
    intro name s hs
    rw [← inOrder_id] at hmedian hp99
    obtain ⟨s', hrep, -⟩ := Fdb.rep_eq id name hs hmedian hp99
    exact ⟨s', hrep⟩
  constructor
  case probe =>
    intro name s hs
    rw [← inOrder_id] at hmin hmedian hp99
    exact Probe.report_eq id name hs hmedian hp99 hmin
  case fdbpub =>
    intro name s hs
    rw [Fdb.report, if_neg hpos]
    exact hrep name s hs
  case pointget => exact hrep
  case wire =>
    intro name s bytes frames hs
    rw [← inOrder_id] at hmedian
    exact Wire.report_eq id name hs bytes frames hmedian
  case rollback =>
    intro name
    rw [Rollback.report, if_neg h, sort_eq]
    simp only [length_ranked, hmedian, hp99]
    exact ⟨_, rfl⟩

theorem index_lt {n : Nat} (h : 0 < n) : ∀ i ∈ [0, n / 2, p99Index n], i < n := by
  intro i hi
  rw [List.mem_cons, List.mem_cons, List.mem_singleton] at hi
  rcases hi with rfl | rfl | rfl
  · exact h
  · exact Nat.div_lt_self h Nat.one_lt_two
  · exact p99Index_lt h

/-- The programs sort by a total order and read inside the list; what they read are the
quantiles, the same for every order of the samples and in every program. -/
theorem reports_agree {xs : List UInt64} (h : xs ≠ []) :
    IsComparator cmp_u64 ∧ (IsLinearOrder UInt64 fun x y => ¬ y < x) ∧
      (∀ i ∈ [0, xs.length / 2, p99Index xs.length], i < xs.length) ∧
      ∃ f, Describes f xs ∧ ∀ ys, ys.Perm xs → Reported f ys := by
  have hpos : 0 < xs.length := List.length_pos_of_ne_nil h
  refine ⟨isComparator_cmp_u64, isLinearOrder_not_lt, index_lt hpos, ?_⟩
  have hsorted := pairwise_ranked (· ≤ ·) xs
  have hlen : (ranked (· ≤ ·) xs).length = xs.length := length_ranked _ xs
  have hzero : 0 < (ranked (· ≤ ·) xs).length := hlen ▸ hpos
  have hhalf : xs.length / 2 < (ranked (· ≤ ·) xs).length := by omega
  have hcent : p99Index xs.length < (ranked (· ≤ ·) xs).length := by
    rw [hlen]
    exact p99Index_lt hpos
  refine ⟨⟨(ranked (· ≤ ·) xs)[0], (ranked (· ≤ ·) xs)[xs.length / 2],
    (ranked (· ≤ ·) xs)[p99Index xs.length]⟩, ?_, fun ys hperm => ?_⟩
  · constructor
    case median => exact isQuantile_ranked hhalf (by omega) (by omega)
    case p99 => exact isQuantile_ranked hcent (by rw [p99Index]; omega) (by rw [p99Index]; omega)
    case min => exact ranked_first hzero
    case ordered =>
      refine ⟨rel_getElem_of_le hsorted hzero hhalf (Nat.zero_le _), ?_⟩
      exact rel_getElem_of_le hsorted hhalf hcent (by rw [p99Index]; omega)
  · have hne : ys ≠ [] := by
      rintro rfl
      exact h hperm.nil_eq.symm
    apply reported_of_ranked hne
    · rw [ranked_congr _ hperm, List.getElem?_eq_getElem hzero]
    · rw [ranked_congr _ hperm, hperm.length_eq, List.getElem?_eq_getElem hhalf]
    · rw [ranked_congr _ hperm, hperm.length_eq, List.getElem?_eq_getElem hcent]

theorem reports_agree_three :
    ∃ f, Describes f [18446744073709551615, 0, 8910] ∧
      ∀ ys, ys.Perm [18446744073709551615, 0, 8910] → Reported f ys :=
  (reports_agree (by decide)).2.2.2

end Report
