import FabricManuals.Lib.Backtrack

/-! # A pattern over a larger alphabet

A pattern for the letters of `α` reads text over `β`, which has letters besides that no
set of the pattern holds.  On text of known letters nothing changes. -/
set_option autoImplicit false

namespace Backtrack

section Over
variable {α β : Type} (known : β → Bool) (f : β → α)

/-- A test sees the letters as `f` has them, a set holds known letters alone. -/
def Regex.over : Regex α → Regex β
  | .eps => .eps
  | .set p => .set fun b => known b && p (f b)
  | .look p => .look fun before after => p (before.map f) (after.map f)
  | .seq r s => .seq r.over s.over
  | .alt r s => .alt r.over s.over
  | .star greedy r => .star greedy r.over
  | .capture r => .capture r.over

def Cursor.map (g : α → β) (c : Cursor α) : Cursor β :=
  ⟨c.before.map g, c.after.map g, c.group.map (List.map g)⟩

variable {known f} {g : α → β}

theorem iterate_map {greedy : Bool} {step : Cursor α → List (Cursor α)} {step' : Cursor β → List (Cursor β)}
    (h : ∀ c : Cursor α, step' (c.map g) = (step c).map (Cursor.map g)) : ∀ (n : Nat) (c : Cursor α),
    iterate greedy step' n (c.map g) = (iterate greedy step n c).map (Cursor.map g) := by
  intro n
  induction n with
  | zero => intro c; rfl
  | succ n ih =>
      intro c
      have hmore : ((step' (c.map g)).filter fun d => d.after.length < (c.map g).after.length).flatMap
            (iterate greedy step' n) =
          (((step c).filter fun d => d.after.length < c.after.length).flatMap
            (iterate greedy step n)).map (Cursor.map g) := by
        have hahead : ∀ d : Cursor α, (d.map g).after.length = d.after.length := fun d => List.length_map _
        rw [h, List.filter_map, List.flatMap_map, List.map_flatMap]
        simp only [ih, hahead, Function.comp_def]
      simp only [iterate, hmore]
      cases greedy <;> simp

theorem run_over (hknown : ∀ a, known (g a) = true) (hf : ∀ a, f (g a) = a) (r : Regex α) :
    ∀ c : Cursor α, (r.over known f).run (c.map g) = (r.run c).map (Cursor.map g) := by
  have hmap : ∀ s : List α, (s.map g).map f = s := by
    intro s
    simp [Function.comp_def, hf]
  induction r with
  | eps => intro c; rfl
  | set p =>
      rintro ⟨before, after, group⟩
      cases after with
      | nil => rfl
      | cons a rest =>
          simp only [Regex.over, Regex.run, Cursor.map, List.map_cons, hknown, hf, Bool.true_and]
          split <;> rfl
  | look p =>
      intro c
      simp only [Regex.over, Regex.run, Cursor.map, hmap]
      split <;> rfl
  | seq r s ihr ihs =>
      intro c
      simp only [Regex.over, run_seq, ihr, List.flatMap_map, List.map_flatMap, ihs]
  | alt r s ihr ihs =>
      intro c
      simp only [Regex.over, run_alt, ihr, ihs, List.map_append]
  | star greedy r ih =>
      intro c
      have hahead : (c.map g).after.length = c.after.length := List.length_map _
      simp only [Regex.over, Regex.run, hahead]
      exact iterate_map ih _ c
  | capture r ih =>
      intro c
      simp only [Regex.over, Regex.run, ih, List.map_map]
      refine List.map_congr_left fun d _ => ?_
      simp [Cursor.map, Cursor.consumedBy, List.map_take]

theorem searchFrom_over (hknown : ∀ a, known (g a) = true) (hf : ∀ a, f (g a) = a) (r : Regex α) :
    ∀ after before : List α, searchFrom (r.over known f) (before.map g) (after.map g) =
      (searchFrom r before after).map (Cursor.map g) := by
  have hfirst : ∀ before after : List α, first (r.over known f) (before.map g) (after.map g) =
      (first r before after).map (Cursor.map g) := by
    intro before after
    have hrun := run_over hknown hf r ⟨before, after, none⟩
    rw [first, first, ← List.head?_map, ← hrun]
    rfl
  intro after
  induction after with
  | nil => intro before; exact hfirst before []
  | cons a rest ih =>
      intro before
      have hhead := hfirst before (a :: rest)
      rw [List.map_cons] at hhead ⊢
      rw [searchFrom, searchFrom, hhead]
      cases first r before (a :: rest) with
      | some d => rfl
      | none => exact ih (a :: before)

/-- The search of a text of known letters finds what it finds in the text itself. -/
theorem search_over (hknown : ∀ a, known (g a) = true) (hf : ∀ a, f (g a) = a) (r : Regex α) (s : List α) :
    search (r.over known f) (s.map g) = (search r s).map (Cursor.map g) :=
  searchFrom_over hknown hf r s []

end Over
end Backtrack
