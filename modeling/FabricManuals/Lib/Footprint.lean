import FabricManuals.Lib.FileScript

/-! # Where a script writes

A script stays within a set of paths if all its operations that write do, whatever it
reads on the way.  The tree is then the same elsewhere, however the script ends.  The
rule for sequences carries what is known of the result of the first part. -/
set_option autoImplicit false

namespace FileScript

open TextFile PosixPath FileTree

section Footprint
variable {α β : Type} {W : Path → Prop}

/-- The script writes within `W` only, and what it returns has `Q`. -/
def Stays (W : Path → Prop) (Q : α → Prop) : Script α → Prop
  | .done a => Q a
  | .crash _ => True
  | .exists? _ next => ∀ b, Stays W Q (next b)
  | .wildcard keep next => ∀ ps, (∀ p ∈ ps, keep p = true) → Stays W Q (next ps)
  | .mkdirP p next => (∀ q, q ≠ [] → q <+: p → W q) ∧ Stays W Q next
  | .touch p next => W p ∧ Stays W Q next
  | .copy _ dst next => W dst ∧ Stays W Q next
  | .read _ next => ∀ bytes, Stays W Q (next bytes)
  | .write p _ next => W p ∧ Stays W Q next

theorem Stays.bind {Q : α → Prop} {R : β → Prop} {x : Script α} {f : α → Script β} (h : Stays W Q x)
    (hf : ∀ a, Q a → Stays W R (f a)) : Stays W R (x >>= f) := by
  show Stays W R (x.bind f)
  induction x with
  | done a => exact hf a h
  | crash e => exact h
  | exists? p next ih => exact fun b => ih b (h b)
  | wildcard keep next ih => exact fun ps hps => ih ps (h ps hps)
  | mkdirP p next ih => exact ⟨h.1, ih h.2⟩
  | touch p next ih => exact ⟨h.1, ih h.2⟩
  | copy src dst next ih => exact ⟨h.1, ih h.2⟩
  | read p next ih => exact fun bytes => ih bytes (h bytes)
  | write p bytes next ih => exact ⟨h.1, ih h.2⟩

theorem find?_mkdirs {t t' : Tree} {p r : Path} (h : t.mkdirs p = .ok t') (hr : ∀ q, q ≠ [] → q <+: p → q ≠ r) :
    t'.find? r = t.find? r := by
  refine mkdirs_induct (P := fun t' => t'.find? r = t.find? r) h rfl ?_
  intro t₁ q hv hq hsame
  rw [find?_insert, if_neg fun heq => hr q hv.ne_nil hq heq.symm, hsame]

theorem find?_touchIn {t t' : Tree} {p r : Path} (h : touchIn t p = .ok t') (hr : p ≠ r) :
    t'.find? r = t.find? r := by
  unfold touchIn at h
  split at h
  · rw [find?_write h, if_neg hr.symm]
  · rw [Except.ok.inj h]
  · rw [find?_write h, if_neg hr.symm]

theorem find?_copyIn {t t' : Tree} {src p r : Path} (h : copyIn t src p = .ok t') (hr : p ≠ r) :
    t'.find? r = t.find? r := by
  unfold copyIn at h
  split at h
  · rw [find?_write h, if_neg hr.symm]
  · cases h

/-- What lies outside is as before. -/
theorem Stays.find?_exec {Q : α → Prop} {x : Script α} (h : Stays W Q x) {r : Path} (hr : ¬ W r) :
    ∀ t, (exec x t).1.find? r = t.find? r := by
  have hne : ∀ p, W p → p ≠ r := fun p hp heq => hr (heq ▸ hp)
  induction x with
  | done a => exact fun t => rfl
  | crash e => exact fun t => rfl
  | exists? p next ih => exact fun t => ih _ (h _) t
  | wildcard keep next ih =>
      exact fun t => ih _ (h _ fun p hp => ((mem_wildcardIn t keep p).mp hp).2) t
  | mkdirP p next ih =>
      intro t
      rw [exec]
      cases hmk : t.mkdirs p with
      | error e => rfl
      | ok t' => exact (ih h.2 t').trans (find?_mkdirs hmk fun q hq hpre => hne q (h.1 q hq hpre))
  | touch p next ih =>
      intro t
      rw [exec]
      cases htouch : touchIn t p with
      | error e => rfl
      | ok t' => exact (ih h.2 t').trans (find?_touchIn htouch (hne p h.1))
  | copy src dst next ih =>
      intro t
      rw [exec]
      cases hcopy : copyIn t src dst with
      | error e => rfl
      | ok t' => exact (ih h.2 t').trans (find?_copyIn hcopy (hne dst h.1))
  | read p next ih =>
      intro t
      rw [exec]
      cases t.read p with
      | error e => rfl
      | ok bytes => exact ih bytes (h bytes) t
  | write p bytes next ih =>
      intro t
      rw [exec]
      cases hwrite : t.write p bytes with
      | error e => rfl
      | ok t' =>
          refine (ih h.2 t').trans ?_
          rw [find?_write hwrite, if_neg (hne p h.1).symm]

end Footprint
end FileScript
