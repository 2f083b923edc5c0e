import Mathlib.Data.Finset.Basic
import Mathlib.Data.Finset.Lattice.Lemmas

/-! # Handles

Programs that obtain handles from a library and have to give each back once.  A
pointer that was never written, or a handle that was given back, may not be used: such
a program has no result. -/
set_option autoImplicit false

namespace Handles

/-- The handles in use; the next one, `fresh`, is none of them. -/
structure Heap where
  fresh : Nat
  live : Finset Nat
  lt_fresh : ∀ h ∈ live, h < fresh

/-- A pointer variable; `none` until something is stored in it. -/
abbrev Pointer := Option Nat

abbrev Prog (α : Type) := StateT Heap Option α

namespace Heap

def empty : Heap := ⟨0, ∅, by simp⟩

theorem fresh_notMem (H : Heap) : H.fresh ∉ H.live :=
  fun h => Nat.lt_irrefl _ (H.lt_fresh _ h)

def allocate (H : Heap) : Heap where
  fresh := H.fresh + 1
  live := insert H.fresh H.live
  lt_fresh := by
    intro h hmem
    rcases Finset.mem_insert.mp hmem with rfl | hlive
    · exact Nat.lt_succ_self _
    · exact Nat.lt_succ_of_lt (H.lt_fresh h hlive)

def release (H : Heap) (h : Nat) : Heap where
  fresh := H.fresh
  live := H.live.erase h
  lt_fresh := fun g hg => H.lt_fresh g (Finset.mem_of_mem_erase hg)

@[simp] theorem release_live (H : Heap) (h : Nat) : (H.release h).live = H.live.erase h := rfl

end Heap

def create (ok : Bool) : Prog Pointer := fun H =>
  if ok then some (some H.fresh, H.allocate) else some (none, H)

def use (p : Pointer) : Prog Unit := fun H =>
  match p with
  | none => none
  | some h => if h ∈ H.live then some ((), H) else none

def destroy (p : Pointer) : Prog Unit := fun H =>
  match p with
  | none => none
  | some h => if h ∈ H.live then some ((), H.release h) else none

def destroyAll : List Pointer → Prog Unit
  | [] => pure ()
  | p :: rest => do
    destroy p
    destroyAll rest

inductive Next (β : Type)
  | go (b : β)
  | stop (b : β)

/-- `for (int i = first; i < first + count; i++)` with a body that may leave the loop. -/
def turns {β : Type} (body : Nat → β → Prog (Next β)) : Nat → Nat → β → Prog β
  | _, 0, b => pure b
  | first, count + 1, b => do
    match ← body first b with
    | .go b => turns body (first + 1) count b
    | .stop b => pure b

/-- With the handles `live` in use the program ends, and `post` holds of its result and
of the handles in use then. -/
def Ends {α : Type} (live : Finset Nat) (p : Prog α) (post : α → Finset Nat → Prop) : Prop :=
  ∀ H : Heap, H.live = live → ∃ a H', p H = some (a, H') ∧ post a H'.live

/-- With the handles `live` in use the program does what it may not. -/
def Undefined {α : Type} (live : Finset Nat) (p : Prog α) : Prop :=
  ∀ H : Heap, H.live = live → p H = none

section
variable {α β : Type} {live : Finset Nat} {post : α → Finset Nat → Prop} {post' : β → Finset Nat → Prop}

theorem bind_run (p : Prog α) (f : α → Prog β) (H : Heap) :
    (p >>= f) H = (p H).bind fun x => f x.1 x.2 := rfl

theorem Ends.mono {p : Prog α} {weaker : α → Finset Nat → Prop} (h : Ends live p post)
    (himp : ∀ a live', post a live' → weaker a live') : Ends live p weaker := by
  intro H hH
  obtain ⟨a, H', hrun, hpost⟩ := h H hH
  exact ⟨a, H', hrun, himp a _ hpost⟩

theorem ends_pure {a : α} (h : post a live) : Ends live (pure a) post :=
  fun H hH => ⟨a, H, rfl, hH ▸ h⟩

theorem Ends.bind {p : Prog α} {f : α → Prog β} (hp : Ends live p post)
    (hf : ∀ a live', post a live' → Ends live' (f a) post') : Ends live (p >>= f) post' := by
  intro H hH
  obtain ⟨a, H₁, hrun, hpost⟩ := hp H hH
  obtain ⟨b, H₂, hrun', hpost'⟩ := hf a _ hpost H₁ rfl
  refine ⟨b, H₂, ?_, hpost'⟩
  rw [bind_run, hrun]
  exact hrun'

theorem Ends.bind_undefined {p : Prog α} {f : α → Prog β} (hp : Ends live p post)
    (hf : ∀ a live', post a live' → Undefined live' (f a)) : Undefined live (p >>= f) := by
  intro H hH
  obtain ⟨a, H₁, hrun, hpost⟩ := hp H hH
  rw [bind_run, hrun]
  exact hf a _ hpost H₁ rfl

theorem Undefined.bind {p : Prog α} (h : Undefined live p) (f : α → Prog β) :
    Undefined live (p >>= f) := by
  intro H hH
  rw [bind_run, h H hH]
  rfl

theorem undefined_use : Undefined live (use none) := fun _ _ => rfl

theorem undefined_destroy : Undefined live (destroy none) := fun _ _ => rfl

variable {p : Pointer} {g : Nat} {k : Unit → Prog β} {f : Pointer → Prog β}

theorem ends_create_failed (h : Ends live (f none) post') :
    Ends live (create false >>= f) post' := fun H hH => h H hH

theorem ends_create (h : ∀ new, new ∉ live → Ends (insert new live) (f (some new)) post') :
    Ends live (create true >>= f) post' := by
  rintro H rfl
  exact h _ H.fresh_notMem H.allocate rfl

theorem ends_use (hg : g ∈ live) (h : Ends live (k ()) post') :
    Ends live (use (some g) >>= k) post' := by
  rintro H rfl
  rw [bind_run, use, if_pos hg]
  exact h H rfl

theorem ends_destroy (hg : g ∉ live) (h : Ends live (k ()) post') :
    Ends (insert g live) (destroy (some g) >>= k) post' := by
  intro H hH
  rw [bind_run, destroy, if_pos (hH ▸ Finset.mem_insert_self g live)]
  refine h (H.release g) ?_
  rw [Heap.release_live, hH, Finset.erase_insert hg]

theorem ends_destroyAll {gs : List Nat} (hnodup : gs.Nodup) (hgs : ∀ g ∈ gs, g ∉ live)
    (h : Ends live (k ()) post') :
    Ends (live ∪ gs.toFinset) (destroyAll (gs.map some) >>= k) post' := by
  induction gs with
  | nil => simpa [destroyAll] using h
  | cons g rest ih =>
      obtain ⟨hg, hrest⟩ := List.forall_mem_cons.mp hgs
      obtain ⟨hnot, hnodup'⟩ := List.nodup_cons.mp hnodup
      rw [List.toFinset_cons, Finset.union_insert, List.map_cons, destroyAll, bind_assoc]
      exact ends_destroy (by simp [hg, hnot]) (ih hnodup' hrest)

/-- What every turn keeps, the loop keeps, and a turn that leaves it leaves what it promises. -/
theorem ends_turns {body : Nat → β → Prog (Next β)} {bound : Nat} (inv : Nat → β → Finset Nat → Prop)
    (left : β → Finset Nat → Prop)
    (hbody : ∀ i < bound, ∀ b live, inv i b live → Ends live (body i b) fun r live' =>
      match r with
      | .go b' => inv (i + 1) b' live'
      | .stop b' => left b' live') :
    ∀ (count first : Nat) (b : β) (live : Finset Nat), first + count = bound → inv first b live →
      Ends live (turns body first count b) fun b' live' => inv bound b' live' ∨ left b' live' := by
  intro count
  induction count with
  | zero =>
      rintro first b live rfl h
      exact ends_pure (Or.inl h)
  | succ count ih =>
      intro first b live hbound h
      refine (hbody first (by omega) b live h).bind fun r live' hr => ?_
      cases r with
      | go b' => exact ih (first + 1) b' live' (by omega) hr
      | stop b' => exact ends_pure (Or.inr hr)

theorem undefined_turns {body : Nat → β → Prog (Next β)} {b : β}
    (hbody : ∀ i, Undefined live (body i b) ∨ Ends live (body i b) fun r live' => r = .go b ∧ live' = live)
    {bad : Nat} (hbad : Undefined live (body bad b)) :
    ∀ (count first : Nat), first ≤ bad → bad < first + count → Undefined live (turns body first count b) := by
  intro count
  induction count with
  | zero => exact fun first hle hlt => absurd hlt (Nat.not_lt.mpr hle)
  | succ count ih =>
      intro first hle hlt
      rcases hle.lt_or_eq with hbefore | rfl
      · rcases hbody first with hundefined | hends
        · exact hundefined.bind _
        · refine hends.bind_undefined ?_
          rintro _ _ ⟨rfl, rfl⟩
          exact ih (first + 1) hbefore (by omega)
      · exact hbad.bind _

end

end Handles
