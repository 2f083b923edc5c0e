import Mathlib.Data.List.Forall2
import Mathlib.Data.List.Induction

/-! # Lists of computations that may fail

`mapM` and `foldlM` run them in order and stop at the first failure. -/
set_option autoImplicit false

namespace Attempts

theorem bind_eq_ok {ε α β : Type} {x : Except ε α} {f : α → Except ε β} {b : β} :
    (x >>= f) = .ok b ↔ ∃ a, x = .ok a ∧ f a = .ok b := by
  cases x <;> simp [bind, Except.bind]

section MapM
variable {ε α β : Type} {f : α → Except ε β}

/-- All succeed iff each does, and the results stand in the order of the list. -/
theorem mapM_eq_ok_iff : ∀ {l : List α} {results : List β},
    l.mapM f = .ok results ↔ List.Forall₂ (fun a b => f a = .ok b) l results := by
  intro l
  induction l with
  | nil =>
      intro results
      rw [List.mapM_nil, List.forall₂_nil_left_iff]
      simp [pure, Except.pure, eq_comm]
  | cons a rest ih =>
      intro results
      simp only [List.mapM_cons, List.forall₂_cons_left_iff, bind_eq_ok, ih]
      constructor
      · rintro ⟨b, hb, bs, hbs, hresults⟩
        exact ⟨b, bs, hb, hbs, (Except.ok.inj hresults).symm⟩
      · rintro ⟨b, bs, hb, hbs, rfl⟩
        exact ⟨b, hb, bs, hbs, rfl⟩

end MapM

section Blocks
variable {ε α β : Type} {f : α → Except ε (List β)}

end Blocks
section FoldM
variable {ε α σ : Type} {f : σ → α → Except ε σ}

/-- What each round keeps of the items before it holds of all the items after the last. -/
theorem invariant_foldlM {I : List α → σ → Prop} {start : σ} (hstart : I [] start)
    (hround : ∀ before a s s', I before s → f s a = .ok s' → I (before ++ [a]) s') {l : List α}
    {s : σ} (h : l.foldlM f start = .ok s) : I l s := by
  induction l using List.reverseRecOn generalizing s with
  | nil =>
      obtain rfl := Except.ok.inj (show Except.ok start = Except.ok s from h)
      exact hstart
  | append_singleton before a ih =>
      rw [List.foldlM_append] at h
      cases hlast : before.foldlM f start with
      | error e =>
          rw [hlast] at h
          cases h
      | ok last =>
          rw [hlast] at h
          have ha : (f last a >>= pure) = .ok s := h
          rw [bind_pure] at ha
          exact hround before a last s (ih hlast) ha

end FoldM

section FoldSome
variable {α σ : Type} {f : σ → α → Option σ}

theorem exists_foldlM {I : List α → σ → Prop} {start : σ} (hstart : I [] start) {l : List α}
    (hround : ∀ before a after s, before ++ a :: after = l → I before s →
      ∃ s', f s a = some s' ∧ I (before ++ [a]) s') : ∃ s, l.foldlM f start = some s ∧ I l s := by
  induction l using List.reverseRecOn with
  | nil => exact ⟨start, rfl, hstart⟩
  | append_singleton before a ih =>
      obtain ⟨last, hlast, hkept⟩ := ih fun before' a' after s hsplit =>
        hround before' a' (after ++ [a]) s (by rw [← hsplit]; simp)
      obtain ⟨s, hs, hI⟩ := hround before a [] last rfl hkept
      refine ⟨s, ?_, hI⟩
      rw [List.foldlM_append, hlast, Option.bind_eq_bind, Option.bind_some, List.foldlM_cons, hs]
      rfl

theorem exists_forall₂_iff {β : Type} {R : α → β → Prop} {l : List α} :
    (∃ results, List.Forall₂ R l results) ↔ ∀ a ∈ l, ∃ b, R a b := by
  induction l with
  | nil => exact iff_of_true ⟨[], .nil⟩ nofun
  | cons a rest ih =>
      rw [List.forall_mem_cons, ← ih]
      constructor
      · intro h
        obtain ⟨results, hresults⟩ := h
        cases hresults with
        | cons ha hrest => exact ⟨⟨_, ha⟩, _, hrest⟩
      · intro h
        obtain ⟨⟨b, ha⟩, results, hrest⟩ := h
        exact ⟨b :: results, .cons ha hrest⟩

/-- The rounds that hang on a block each come to an end iff each block is there. -/
theorem foldlM_blocks_eq_some_iff {β : Type} {f : α → Option (List β)} {l : List α} {start r : List β} :
    l.foldlM (fun acc a => do
      let block ← f a
      return acc ++ block) start = some r ↔
      ∃ blocks, r = start ++ blocks.flatten ∧ List.Forall₂ (fun a block => f a = some block) l blocks := by
  induction l generalizing start with
  | nil => simp [eq_comm]
  | cons a rest ih =>
      rw [List.foldlM_cons]
      constructor
      · intro h
        obtain ⟨first, hfirst, hrest⟩ := Option.bind_eq_some_iff.mp h
        obtain ⟨block, hblock, hpush⟩ := Option.bind_eq_some_iff.mp hfirst
        obtain rfl := Option.some.inj hpush
        obtain ⟨blocks, rfl, hblocks⟩ := ih.mp hrest
        exact ⟨block :: blocks, by rw [List.flatten_cons, List.append_assoc], .cons hblock hblocks⟩
      · intro h
        obtain ⟨blocks, rfl, hblocks⟩ := h
        cases hblocks with
        | cons hblock hrest =>
            apply Option.bind_eq_some_iff.mpr
            refine ⟨_, Option.bind_eq_some_iff.mpr ⟨_, hblock, rfl⟩, ih.mpr ⟨_, ?_, hrest⟩⟩
            rw [List.flatten_cons, List.append_assoc]

end FoldSome

end Attempts
