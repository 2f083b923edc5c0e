import Mathlib.Data.List.Forall2
import FabricManuals.Lib.Surroundings

/-! # Words that a match cannot do without

A word is a row of sets, one for each of its characters.  A pattern requires a list of
words if each of its matches has one of them in it; a sequence requires what any of its
parts does, so a text without the words of one part is passed by. -/
set_option autoImplicit false

namespace Backtrack

section Words
variable {α : Type}

def Has (row : List (α → Bool)) (text : List α) : Prop :=
  ∃ v, v <:+: text ∧ List.Forall₂ (fun p a => p a = true) row v

theorem Has.mono {row : List (α → Bool)} {w text : List α} (h : Has row w) (hw : w <:+: text) : Has row text := by
  obtain ⟨v, hv, hrow⟩ := h
  exact ⟨v, hv.trans hw, hrow⟩

/-- Each match has a word of one of the rows in it. -/
def Requires (r : Regex α) (rows : List (List (α → Bool))) : Prop :=
  ∀ c d, d ∈ r.run c → ∃ w, Advances c d w ∧ ∃ row ∈ rows, Has row w

variable {r s : Regex α} {rows rows' : List (List (α → Bool))}

theorem requires_word {β : Type} (f g : β → α → Bool) (hwider : ∀ b a, f b a = true → g b a = true)
    (w : List β) :
    Requires (concat (w.map fun b => .set (f b))) [w.map g] := by
  intro c d hd
  have hsets : concat (w.map fun b => Regex.set (f b)) = concat ((w.map f).map .set) := by
    rw [List.map_map]
    rfl
  rw [hsets] at hd
  obtain ⟨v, hv, hadv, -⟩ := (mem_run_sets (w.map f) c d).mp hd
  refine ⟨v, hadv, w.map g, List.mem_singleton.mpr rfl, v, List.infix_refl v, ?_⟩
  rw [List.forall₂_map_left_iff] at hv ⊢
  exact hv.imp fun b a => hwider b a

theorem Requires.seq_left (h : Requires r rows) (s : Regex α) : Requires (.seq r s) rows := by
  intro c d hd
  rw [run_seq, List.mem_flatMap] at hd
  obtain ⟨e, he, hd⟩ := hd
  obtain ⟨v, hv, row, hrow, hhas⟩ := h c e he
  obtain ⟨w, hw⟩ := run_advances s e d hd
  exact ⟨v ++ w, hv.trans hw, row, hrow, hhas.mono (List.prefix_append v w).isInfix⟩

theorem Requires.seq_right (h : Requires s rows) (r : Regex α) : Requires (.seq r s) rows := by
  intro c d hd
  rw [run_seq, List.mem_flatMap] at hd
  obtain ⟨e, he, hd⟩ := hd
  obtain ⟨v, hv⟩ := run_advances r c e he
  obtain ⟨w, hw, row, hrow, hhas⟩ := h e d hd
  exact ⟨v ++ w, hv.trans hw, row, hrow, hhas.mono (List.suffix_append v w).isInfix⟩

theorem Requires.alt (h : Requires r rows) (h' : Requires s rows') : Requires (.alt r s) (rows ++ rows') := by
  intro c d hd
  rw [run_alt, List.mem_append] at hd
  rcases hd with hd | hd
  · obtain ⟨w, hw, row, hrow, hhas⟩ := h c d hd
    exact ⟨w, hw, row, List.mem_append_left _ hrow, hhas⟩
  · obtain ⟨w, hw, row, hrow, hhas⟩ := h' c d hd
    exact ⟨w, hw, row, List.mem_append_right _ hrow, hhas⟩

theorem requires_part : ∀ (parts : List (Regex α)) (i : Nat), parts[i]? = some r → Requires r rows →
    Requires (concat parts) rows := by
  intro parts
  induction parts with
  | nil => intro i hi _; cases hi
  | cons first rest ih =>
      intro i hi h
      cases i with
      | zero =>
          obtain rfl := Option.some.inj hi
          exact h.seq_left _
      | succ i => exact (ih i hi h).seq_right first

/-- What a search finds has a required word in it. -/
theorem Requires.search (h : Requires r rows) {text : List α} (hfound : (search r text).isSome = true) :
    ∃ row ∈ rows, Has row text := by
  obtain ⟨p, post, rfl, d, hd⟩ := (search_isSome_iff_exists ..).mp hfound
  obtain ⟨w, hw, row, hrow, hhas⟩ := h _ d hd
  have hpost : post = w ++ d.after := hw.1
  refine ⟨row, hrow, hhas.mono ?_⟩
  rw [hpost]
  exact ⟨p, d.after, List.append_assoc ..⟩

end Words
end Backtrack
