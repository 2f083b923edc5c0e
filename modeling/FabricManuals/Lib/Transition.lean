import Mathlib.Data.List.Infix
import Mathlib.Logic.Relation

/-! # Steps and runs

What steps keep, runs keep: for the states a step relation can reach, and for the
histories of a step that takes inputs. -/
set_option autoImplicit false

namespace Transition

section Reachable
variable {σ ι : Type} (act : ι → σ → Option σ)

def Step (s s' : σ) : Prop := ∃ a, act a s = some s'

def Reachable (start s : σ) : Prop := Relation.ReflTransGen (Step act) start s

def Stuck (s : σ) : Prop := ∀ a s', act a s = some s' → s' = s

def runSchedule : List ι → σ → Option σ
  | [], s => some s
  | a :: rest, s => (act a s).bind (runSchedule rest)

variable {act}

theorem invariant {I : σ → Prop} {start s : σ} (hstart : I start)
    (hstep : ∀ a s s', I s → act a s = some s' → I s') (h : Reachable act start s) : I s := by
  induction h with
  | refl => exact hstart
  | tail _ hlast ih =>
      obtain ⟨a, ha⟩ := hlast
      exact hstep a _ _ ih ha

theorem reachable_of_runSchedule {schedule : List ι} {start s : σ}
    (h : runSchedule act schedule start = some s) : Reachable act start s := by
  induction schedule generalizing start with
  | nil =>
      obtain rfl := Option.some.inj h
      exact Relation.ReflTransGen.refl
  | cons a rest ih =>
      obtain ⟨next, hnext, hrest⟩ := Option.bind_eq_some_iff.mp h
      exact Relation.ReflTransGen.head ⟨a, hnext⟩ (ih hrest)

theorem runSchedule_concat (schedule : List ι) (a : ι) (start : σ) :
    runSchedule act (schedule ++ [a]) start = (runSchedule act schedule start).bind (act a) := by
  induction schedule generalizing start with
  | nil => cases h : act a start <;> simp [runSchedule, h]
  | cons b rest ih =>
      rw [List.cons_append, runSchedule, runSchedule, Option.bind_assoc]
      exact congrArg _ (funext ih)

theorem invariant_runSchedule {I : List ι → σ → Prop} {start : σ} (hstart : I [] start)
    (hstep : ∀ before a s s', runSchedule act before start = some s → I before s →
      act a s = some s' → I (before ++ [a]) s')
    {schedule : List ι} {s : σ} (h : runSchedule act schedule start = some s) : I schedule s := by
  induction schedule using List.reverseRecOn generalizing s with
  | nil =>
      obtain rfl := Option.some.inj h
      exact hstart
  | append_singleton before a ih =>
      rw [runSchedule_concat] at h
      obtain ⟨last, hlast, ha⟩ := Option.bind_eq_some_iff.mp h
      exact hstep before a last s hlast (ih hlast) ha

end Reachable

/-- Where `Q` says of each step whether it keeps `P`, all the history so far has `P` iff
all its steps have `Q`. -/
theorem forall_prefix_iff {ι : Type} {P : List ι → Prop} {Q : List ι → ι → Prop} (hnil : P [])
    (hstep : ∀ before i, P before → (P (before ++ [i]) ↔ Q before i)) (inputs : List ι) :
    (∀ before, before <+: inputs → P before) ↔
      ∀ before i rest, inputs = before ++ i :: rest → Q before i := by
  constructor
  · rintro h before i rest rfl
    have hnext : before ++ [i] <+: before ++ i :: rest :=
      ⟨rest, by rw [List.append_assoc, List.singleton_append]⟩
    exact (hstep before i (h before (List.prefix_append _ _))).mp (h _ hnext)
  · intro h before
    induction before using List.reverseRecOn with
    | nil => exact fun _ => hnil
    | append_singleton before i ih =>
        intro h
        obtain ⟨rest, rfl⟩ := h
        refine (hstep before i (ih ⟨i :: rest, ?_⟩)).mpr (h before i rest ?_)
        · rw [List.append_assoc, List.singleton_append]
        · rw [List.append_assoc, List.singleton_append]

end Transition
