import FabricManuals.Lib.Transition
import Mathlib.Data.List.Sublists

/-! # Processes that take turns

Where in every state one process can do something and the others wait, the order of
the moves is fixed, and a schedule comes to the end iff it gives the processes their
turns in this order.  What else it holds does not matter. -/
set_option autoImplicit false

namespace Turns

section Play
variable {σ ι : Type} (act : ι → σ → Option σ)

/-- A process that cannot move leaves the state as it is. -/
def next (a : ι) (s : σ) : σ := (act a s).getD s

def play : List ι → σ → σ
  | [], s => s
  | a :: rest, s => play rest (next act a s)

/-- From the first state to the last the processes move in the order of the word, and
whoever is not named waits. -/
inductive Course : σ → List ι → σ → Prop
  | finished {s : σ} (hover : ∀ a, next act a s = s) : Course s [] s
  | turn {s s' last : σ} {a : ι} {word : List ι} (hmove : next act a s = s') (hne : s' ≠ s)
    (hwait : ∀ b, b ≠ a → next act b s = s) (hrest : Course s' word last) :
    Course s (a :: word) last

variable {act}

theorem reachable_play (schedule : List ι) {start s : σ} (h : Transition.Reachable act start s) :
    Transition.Reachable act start (play act schedule s) := by
  induction schedule generalizing s with
  | nil => exact h
  | cons a rest ih =>
      apply ih
      cases hact : act a s with
      | none =>
          rw [next, hact]
          exact h
      | some s' =>
          rw [next, hact]
          exact h.tail ⟨a, hact⟩

theorem Course.over_last {s last : σ} {word : List ι} (h : Course act s word last) (a : ι) :
    next act a last = last := by
  induction h with
  | finished hover => exact hover a
  | turn _ _ _ _ ih => exact ih

theorem play_over {s : σ} (hover : ∀ a, next act a s = s) (schedule : List ι) :
    play act schedule s = s := by
  induction schedule with
  | nil => rfl
  | cons a rest ih => rw [play, hover a, ih]

theorem play_eq_last_iff {s last : σ} {word : List ι} (h : Course act s word last)
    (schedule : List ι) : play act schedule s = last ↔ word.Sublist schedule := by
  induction schedule generalizing s word with
  | nil =>
      rw [List.sublist_nil, play]
      cases h with
      | finished => simp
      | @turn _ s' _ a word hmove hne hwait hrest =>
          have hne' : s ≠ last := by
            rintro rfl
            exact hne (hmove.symm.trans (hrest.over_last a))
          simp [hne']
  | cons b rest ih =>
      cases h with
      | finished hover => simp [play_over hover]
      | @turn _ s' _ a word hmove hne hwait hrest =>
          by_cases hturn : b = a
          · subst hturn
            rw [play, hmove, ih hrest, List.cons_sublist_cons]
          · rw [play, hwait b hturn, ih (.turn hmove hne hwait hrest), List.sublist_cons_iff]
            constructor
            · exact Or.inl
            · intro hsub
              rcases hsub with hsub | ⟨tail, heq, -⟩
              · exact hsub
              · exact absurd (List.cons.inj heq).1.symm hturn

end Play

section Fair
variable {ι : Type}

def Fair (schedule : Nat → ι) : Prop := ∀ a k, ∃ m, k ≤ m ∧ schedule m = a

def opening (schedule : Nat → ι) (k : Nat) : List ι := (List.range k).map schedule

theorem opening_succ (schedule : Nat → ι) (k : Nat) :
    opening schedule (k + 1) = opening schedule k ++ [schedule k] := by
  rw [opening, List.range_succ, List.map_append]
  rfl

theorem opening_mono (schedule : Nat → ι) {k m : Nat} (h : k ≤ m) :
    opening schedule k <+: opening schedule m := by
  induction h with
  | refl => exact List.prefix_rfl
  | step _ ih =>
      rw [opening_succ]
      exact ih.trans (List.prefix_append _ _)

theorem Fair.sublist_opening {schedule : Nat → ι} (h : Fair schedule) (word : List ι) :
    ∃ k, word.Sublist (opening schedule k) := by
  induction word using List.reverseRecOn with
  | nil => exact ⟨0, List.nil_sublist _⟩
  | append_singleton word a ih =>
      obtain ⟨k, hk⟩ := ih
      obtain ⟨m, hm, rfl⟩ := h a k
      refine ⟨m + 1, ?_⟩
      rw [opening_succ]
      exact (hk.trans (opening_mono schedule hm).sublist).append (List.Sublist.refl _)

end Fair

section Handovers
variable {ι : Type} [DecidableEq ι]

/-- How often the process in a schedule is another one than before. -/
def handovers : List ι → Nat
  | a :: b :: rest => (if a = b then 0 else 1) + handovers (b :: rest)
  | _ => 0

theorem handovers_le_cons (a : ι) (l : List ι) : handovers l ≤ handovers (a :: l) := by
  cases l with
  | nil => exact Nat.le_refl _
  | cons b rest => exact Nat.le_add_left _ _

theorem handovers_cons_le (a : ι) (l : List ι) : handovers (a :: l) ≤ handovers l + 1 := by
  cases l with
  | nil => exact Nat.zero_le _
  | cons b rest =>
      rw [handovers]
      split <;> omega

theorem handovers_cons_cons_le (a b : ι) (l : List ι) :
    handovers (a :: l) ≤ handovers (a :: b :: l) := by
  by_cases hab : a = b
  · subst hab
    rw [handovers, if_pos rfl, Nat.zero_add]
  · rw [show handovers (a :: b :: l) = 1 + handovers (b :: l) by rw [handovers, if_neg hab]]
    have hcons := handovers_cons_le a l
    have hle := handovers_le_cons b l
    omega

theorem handovers_le_of_sublist {l l' : List ι} (h : l.Sublist l') : handovers l ≤ handovers l' := by
  have hboth : handovers l ≤ handovers l' ∧ ∀ a, handovers (a :: l) ≤ handovers (a :: l') := by
    induction h with
    | slnil => exact ⟨Nat.le_refl _, fun a => Nat.le_refl _⟩
    | @cons l l' b hsub ih =>
        refine ⟨ih.1.trans (handovers_le_cons b l'), fun a => ?_⟩
        exact (ih.2 a).trans (handovers_cons_cons_le a b l')
    | @cons_cons l l' b hsub ih =>
        refine ⟨ih.2 b, fun a => ?_⟩
        exact Nat.add_le_add_left (ih.2 b) _
  exact hboth.1

end Handovers

end Turns
