import Mathlib.Data.List.Basic
import Mathlib.Logic.Function.Basic

/-! # Folding words into a state by steps that can be undone

A step is reversible when, with the word held, it permutes the states and, with the
state held, it is a one-to-one map of the words onto the states.  A fold of such
steps loses nothing that enters at one place. -/
set_option autoImplicit false

namespace Folding

section Fold
variable {σ ω : Type}

structure Reversible (step : σ → ω → σ) : Prop where
  state : ∀ v, Function.Bijective fun s => step s v
  word : ∀ s, Function.Bijective fun v => step s v

def DifferOnce (ws ws' : List ω) : Prop := ws.length = ws'.length ∧ ∃! i : Nat, ws[i]? ≠ ws'[i]?

variable {step : σ → ω → σ}

theorem Reversible.foldl_state (hstep : Reversible step) (ws : List ω) :
    Function.Bijective fun s => ws.foldl step s := by
  induction ws with
  | nil => exact Function.bijective_id
  | cons v rest ih => exact ih.comp (hstep.state v)

/-- With all other words held, the word at one place decides the outcome. -/
theorem Reversible.foldl_word (hstep : Reversible step) (s : σ) (pre post : List ω) :
    Function.Bijective fun v => (pre ++ v :: post).foldl step s := by
  have hsplit : (fun v => (pre ++ v :: post).foldl step s) =
      (fun t => post.foldl step t) ∘ fun v => step (pre.foldl step s) v := by
    funext v
    rw [List.foldl_append, List.foldl_cons]
    rfl
  rw [hsplit]
  exact (hstep.foldl_state post).comp (hstep.word _)

theorem DifferOnce.split {ws ws' : List ω} (h : DifferOnce ws ws') :
    ∃ pre v v' post, v ≠ v' ∧ ws = pre ++ v :: post ∧ ws' = pre ++ v' :: post := by
  obtain ⟨hlength, i, hi, honly⟩ := h
  have hsame : ∀ j, j ≠ i → ws[j]? = ws'[j]? := by
    intro j hj
    by_contra hne
    exact hj (honly j hne)
  have hlt : i < ws.length := by
    by_contra hge
    apply hi
    rw [List.getElem?_eq_none (by omega), List.getElem?_eq_none (by omega)]
  have hlt' : i < ws'.length := hlength ▸ hlt
  have hpre : ws.take i = ws'.take i := by
    apply List.ext_getElem?
    intro j
    by_cases hj : j < i
    · rw [List.getElem?_take_of_lt hj, List.getElem?_take_of_lt hj]
      exact hsame j (by omega)
    · rw [List.getElem?_take_eq_none (by omega), List.getElem?_take_eq_none (by omega)]
  have hpost : ws.drop (i + 1) = ws'.drop (i + 1) := by
    apply List.ext_getElem?
    intro j
    rw [List.getElem?_drop, List.getElem?_drop]
    exact hsame _ (by omega)
  refine ⟨ws.take i, ws[i], ws'[i], ws.drop (i + 1), ?_, ?_, ?_⟩
  · intro h
    apply hi
    rw [List.getElem?_eq_getElem hlt, List.getElem?_eq_getElem hlt', h]
  · rw [List.getElem_cons_drop, List.take_append_drop]
  · rw [hpre, hpost, List.getElem_cons_drop, List.take_append_drop]

/-- A difference at a single place is carried through to the end. -/
theorem Reversible.foldl_ne (hstep : Reversible step) (s : σ) {ws ws' : List ω}
    (h : DifferOnce ws ws') : ws.foldl step s ≠ ws'.foldl step s := by
  obtain ⟨pre, v, v', post, hne, rfl, rfl⟩ := h.split
  intro heq
  exact hne ((hstep.foldl_word s pre post).1 heq)

end Fold
end Folding
