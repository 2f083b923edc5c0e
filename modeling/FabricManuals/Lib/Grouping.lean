import FabricManuals.Lib.OrderedDict
import Mathlib.Data.List.Perm.Basic
import Mathlib.Order.Lattice

/-! # Groups: a dictionary of lists

Each item is put behind those that have its key; a key stands where its first item
made it. -/
set_option autoImplicit false

namespace OrderedDict

section Groups
variable {κ α : Type} [DecidableEq κ]

/-- Puts `a` behind the items under `k`; where there are none, it starts a list. -/
def Dict.push (d : Dict κ (List α)) (k : κ) (a : α) : Dict κ (List α) :=
  d.set k ((d.get? k).getD [] ++ [a])

def groupBy (key : α → κ) (l : List α) : Dict κ (List α) :=
  l.foldl (fun d a => d.push (key a) a) .empty

end Groups

section Successive
variable {α : Type}

/-- Every element but the first, with the one just before it. -/
def successive (l : List α) : List (α × α) := l.tail.zip l

theorem length_successive (l : List α) : (successive l).length = l.length - 1 := by
  rw [successive, List.length_zip, List.length_tail]
  omega

theorem successive_concat (l : List α) (a : α) :
    successive (l ++ [a]) = successive l ++ (l.getLast?.map (a, ·)).toList := by
  cases l using List.reverseRecOn with
  | nil => rfl
  | append_singleton l b =>
      have hlen : (l ++ [b]).tail.length = l.length := by simp
      rw [List.getLast?_concat, successive, List.tail_append_of_ne_nil (by simp), List.append_assoc,
        List.zip_append hlen, successive, ← List.append_nil (l ++ [b]).tail, List.zip_append hlen]
      simp

/-- In a sorted list these are the pairs that no element comes between. -/
theorem mem_successive_iff [LinearOrder α] {l : List α} (h : l.Pairwise (· < ·)) {a b : α} :
    (a, b) ∈ successive l ↔ a ∈ l ∧ b ∈ l ∧ b < a ∧ ∀ e ∈ l, e ≤ b ∨ a ≤ e := by
  induction l with
  | nil => simp [successive]
  | cons x rest ih =>
      obtain ⟨hx, hrest⟩ := List.pairwise_cons.mp h
      cases rest with
      | nil =>
          constructor
          · exact fun hmem => absurd hmem List.not_mem_nil
          · rintro ⟨ha, hb, hlt, -⟩
            rw [List.mem_singleton.mp ha, List.mem_singleton.mp hb] at hlt
            exact absurd hlt (lt_irrefl x)
      | cons y ys =>
          have hstep : successive (x :: y :: ys) = (y, x) :: successive (y :: ys) := rfl
          obtain ⟨hy, -⟩ := List.pairwise_cons.mp hrest
          rw [hstep, List.mem_cons, ih hrest, Prod.mk.injEq]
          constructor
          · rintro (⟨rfl, rfl⟩ | ⟨ha, hb, hlt, hbetween⟩)
            · refine ⟨by simp, by simp, hx _ List.mem_cons_self, fun e he => ?_⟩
              rcases List.mem_cons.mp he with rfl | he
              · exact Or.inl le_rfl
              · rcases List.mem_cons.mp he with rfl | he
                · exact Or.inr le_rfl
                · exact Or.inr (hy e he).le
            · refine ⟨List.mem_cons_of_mem _ ha, List.mem_cons_of_mem _ hb, hlt, ?_⟩
              exact List.forall_mem_cons.mpr ⟨Or.inl (hx b hb).le, hbetween⟩
          · rintro ⟨ha, hb, hlt, hbetween⟩
            obtain ⟨-, hbetween'⟩ := List.forall_mem_cons.mp hbetween
            have ha' : a ∈ y :: ys := by
              rcases List.mem_cons.mp ha with rfl | ha
              · rcases List.mem_cons.mp hb with rfl | hb
                · exact absurd hlt (lt_irrefl _)
                · exact absurd hlt (hx b hb).asymm
              · exact ha
            rcases List.mem_cons.mp hb with rfl | hb
            · refine Or.inl ⟨?_, rfl⟩
              rcases hbetween' y List.mem_cons_self with hle | hle
              · exact absurd (hx y List.mem_cons_self) hle.not_gt
              · rcases List.mem_cons.mp ha' with hay | hay
                · exact hay
                · exact absurd (hy a hay) hle.not_gt
            · exact Or.inr ⟨ha', hb, hlt, hbetween'⟩

end Successive

end OrderedDict
