import Mathlib.Tactic.Common

/-! # Changes in place

A computation that changes a value step by step and may raise on the way.  What it has
changed by then stays changed, also where a handler swallows the exception, so a
computation is all or nothing only if it raises before its first change. -/
set_option autoImplicit false

namespace InPlace

structure Action (σ ε α : Type) where
  run : σ → σ × Except ε α

section Action
variable {σ ε α β : Type}

def andThen (f : α → Action σ ε β) : σ × Except ε α → σ × Except ε β
  | (s, .ok a) => (f a).run s
  | (s, .error e) => (s, .error e)

instance : Monad (Action σ ε) where
  pure a := ⟨fun s => (s, .ok a)⟩
  bind x f := ⟨fun s => andThen f (x.run s)⟩

def change (f : σ → σ) : Action σ ε Unit := ⟨fun s => (f s, .ok ())⟩

def ofExcept (r : Except ε α) : Action σ ε α := ⟨fun s => (s, r)⟩

/-- The handler that takes every exception and does nothing. -/
def swallow (x : Action σ ε Unit) : Action σ ε Unit := ⟨fun s => ((x.run s).1, .ok ())⟩

@[simp] theorem run_pure (a : α) (s : σ) : (pure a : Action σ ε α).run s = (s, .ok a) := rfl

@[simp] theorem run_change (f : σ → σ) (s : σ) :
    (change f : Action σ ε Unit).run s = (f s, .ok ()) := rfl

@[simp] theorem run_ofExcept (r : Except ε α) (s : σ) :
    (ofExcept r : Action σ ε α).run s = (s, r) := rfl

@[simp] theorem run_swallow (x : Action σ ε Unit) (s : σ) :
    (swallow x).run s = ((x.run s).1, .ok ()) := rfl

@[simp] theorem run_bind (x : Action σ ε α) (f : α → Action σ ε β) (s : σ) :
    (x >>= f).run s = andThen f (x.run s) := rfl

@[simp] theorem andThen_ok (f : α → Action σ ε β) (s : σ) (a : α) : andThen f (s, .ok a) = (f a).run s := rfl

@[simp] theorem andThen_error (f : α → Action σ ε β) (s : σ) (e : ε) :
    andThen f (s, .error e) = (s, .error e) := rfl

def Reads (x : Action σ ε α) : Prop := ∀ s, (x.run s).1 = s

def Safe (x : Action σ ε α) : Prop := ∀ s, ∃ a, (x.run s).2 = .ok a

/-- Where an exception is raised, nothing has been changed. -/
def AllOrNothing (x : Action σ ε α) : Prop := ∀ s e, (x.run s).2 = .error e → (x.run s).1 = s

theorem Safe.allOrNothing {x : Action σ ε α} (h : Safe x) : AllOrNothing x := by
  intro s e he
  obtain ⟨a, ha⟩ := h s
  rw [ha] at he
  cases he

theorem reads_ofExcept (r : Except ε α) : Reads (ofExcept r : Action σ ε α) := fun _ => rfl

theorem safe_pure (a : α) : Safe (pure a : Action σ ε α) := fun _ => ⟨a, rfl⟩

theorem safe_change (f : σ → σ) : Safe (change f : Action σ ε Unit) := fun _ => ⟨(), rfl⟩

theorem Safe.bind {x : Action σ ε α} {f : α → Action σ ε β} (hx : Safe x) (hf : ∀ a, Safe (f a)) :
    Safe (x >>= f) := by
  intro s
  obtain ⟨a, ha⟩ := hx s
  rw [run_bind, show x.run s = ((x.run s).1, .ok a) from Prod.ext rfl ha]
  exact hf a _

/-- What only reads may raise in front of the changes. -/
theorem Reads.bind {x : Action σ ε α} {f : α → Action σ ε β} (hx : Reads x)
    (hf : ∀ a, AllOrNothing (f a)) : AllOrNothing (x >>= f) := by
  intro s e he
  have hsame := hx s
  rw [run_bind] at he ⊢
  generalize x.run s = left at hsame he
  obtain ⟨s', result⟩ := left
  obtain rfl : s' = s := hsame
  cases result with
  | error e' => rfl
  | ok a => exact hf a s' e he

/-- What cannot raise may follow the changes. -/
theorem AllOrNothing.bind {x : Action σ ε α} {f : α → Action σ ε β} (hx : AllOrNothing x)
    (hf : ∀ a, Safe (f a)) : AllOrNothing (x >>= f) := by
  intro s e he
  have hnone := hx s
  rw [run_bind] at he ⊢
  generalize x.run s = left at hnone he
  obtain ⟨s', result⟩ := left
  cases result with
  | error e' => exact hnone e' rfl
  | ok a =>
      obtain ⟨b, hb⟩ := hf a s'
      rw [andThen_ok, hb] at he
      cases he

end Action
end InPlace
