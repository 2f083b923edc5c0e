import Mathlib.Data.List.Sort

/-! # Order statistics

A list put in order, the element that stands at an index of it, and how many elements
are on either side of that one.  None of it depends on how the list came. -/
set_option autoImplicit false

namespace OrderStatistics

theorem rel_getElem_of_le {α : Type} {r : α → α → Prop} [Std.Refl r] {l : List α} (h : l.Pairwise r)
    {j k : Nat} (hj : j < l.length) (hk : k < l.length) (hjk : j ≤ k) : r l[j] l[k] := by
  rcases Nat.eq_or_lt_of_le hjk with rfl | hlt
  · exact Std.Refl.refl _
  · exact List.pairwise_iff_getElem.mp h j k hj hk hlt

section Relation
variable {α : Type} (r : α → α → Prop) [DecidableRel r]

/-- Of every `q` elements at least `p` are not after `x`, and at least the others not
before it. -/
structure IsQuantile (p q : Nat) (xs : List α) (x : α) : Prop where
  below : p * xs.length ≤ q * xs.countP (r · x)
  above : (q - p) * xs.length ≤ q * xs.countP (r x ·)

theorem IsQuantile.of_perm {p q : Nat} {xs ys : List α} {x : α} (hperm : xs.Perm ys)
    (h : IsQuantile r p q ys x) : IsQuantile r p q xs x where
  below := by
    rw [hperm.length_eq, hperm.countP_eq]
    exact h.below
  above := by
    rw [hperm.length_eq, hperm.countP_eq]
    exact h.above

def ranked (xs : List α) : List α := xs.mergeSort (r · ·)

@[simp] theorem length_ranked (xs : List α) : (ranked r xs).length = xs.length :=
  List.length_mergeSort xs

theorem ranked_perm (xs : List α) : (ranked r xs).Perm xs := List.mergeSort_perm xs _

variable [IsLinearOrder α r]

theorem pairwise_ranked (xs : List α) : (ranked r xs).Pairwise r := List.pairwise_mergeSort' r xs

theorem ranked_congr {xs ys : List α} (h : xs.Perm ys) : ranked r xs = ranked r ys := by
  have hperm : (ranked r xs).Perm (ranked r ys) :=
    (ranked_perm r xs).trans (h.trans (ranked_perm r ys).symm)
  exact hperm.eq_of_pairwise' (pairwise_ranked r xs) (pairwise_ranked r ys)

variable {r}

theorem succ_le_countP_below {l : List α} (h : l.Pairwise r) {k : Nat} (hk : k < l.length) :
    k + 1 ≤ l.countP (r · l[k]) := by
  have hall : (l.take (k + 1)).countP (r · l[k]) = (l.take (k + 1)).length := by
    rw [List.countP_eq_length]
    intro x hx
    obtain ⟨j, hj, rfl⟩ := List.mem_take_iff_getElem.mp hx
    exact decide_eq_true (rel_getElem_of_le h _ hk (by omega))
  calc k + 1 = (l.take (k + 1)).length := by rw [List.length_take]; omega
    _ = (l.take (k + 1)).countP (r · l[k]) := hall.symm
    _ ≤ l.countP (r · l[k]) := (List.take_sublist _ _).countP_le

theorem sub_le_countP_above {l : List α} (h : l.Pairwise r) {k : Nat} (hk : k < l.length) :
    l.length - k ≤ l.countP (r l[k] ·) := by
  have hall : (l.drop k).countP (r l[k] ·) = (l.drop k).length := by
    rw [List.countP_eq_length]
    intro x hx
    obtain ⟨j, hj, rfl⟩ := List.mem_drop_iff_getElem.mp hx
    exact decide_eq_true (rel_getElem_of_le h hk _ (Nat.le_add_right k j))
  calc l.length - k = (l.drop k).length := List.length_drop.symm
    _ = (l.drop k).countP (r l[k] ·) := hall.symm
    _ ≤ l.countP (r l[k] ·) := (List.drop_sublist _ _).countP_le

/-- The element at `k` is a quantile wherever `k` leaves enough places on both sides. -/
theorem isQuantile_ranked {p q k : Nat} {xs : List α} (hk : k < (ranked r xs).length)
    (hbelow : p * xs.length ≤ q * (k + 1)) (habove : (q - p) * xs.length ≤ q * (xs.length - k)) :
    IsQuantile r p q xs (ranked r xs)[k] := by
  apply IsQuantile.of_perm r (ranked_perm r xs).symm
  constructor
  · rw [length_ranked]
    exact hbelow.trans (Nat.mul_le_mul_left q (succ_le_countP_below (pairwise_ranked r xs) hk))
  · have hcount := sub_le_countP_above (pairwise_ranked r xs) hk
    rw [length_ranked] at hcount ⊢
    exact habove.trans (Nat.mul_le_mul_left q hcount)

theorem ranked_first {xs : List α} (h : 0 < (ranked r xs).length) :
    (ranked r xs)[0] ∈ xs ∧ ∀ x ∈ xs, r (ranked r xs)[0] x := by
  refine ⟨(ranked_perm r xs).mem_iff.mp (List.getElem_mem h), fun x hx => ?_⟩
  obtain ⟨k, hk, rfl⟩ := List.mem_iff_getElem.mp ((ranked_perm r xs).mem_iff.mpr hx)
  exact rel_getElem_of_le (pairwise_ranked r xs) h hk (Nat.zero_le k)

end Relation

end OrderStatistics
