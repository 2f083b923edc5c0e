import FabricManuals.Lib.FileTree
import Mathlib.Data.Char
import Mathlib.Data.List.Lex
import Mathlib.Data.List.Sort

/-! # Scripts: programs over a file tree

A script is the tree of its file operations, so that what it does is a matter of
running it on a file tree.  An operation that fails ends the script and leaves the
tree as it found it. -/
set_option autoImplicit false

namespace FileScript

open TextFile PosixPath FileTree

/-- What ends a script early: a file operation, or a match that no clause covers. -/
inductive Crash
  | file (e : OSError)
  | badMatch
deriving DecidableEq

inductive Script (α : Type)
  | done (a : α)
  | crash (e : Crash)
  | exists? (p : Path) (next : Bool → Script α)
  | wildcard (keep : Path → Bool) (next : List Path → Script α)
  | mkdirP (p : Path) (next : Script α)
  | touch (p : Path) (next : Script α)
  | copy (src dst : Path) (next : Script α)
  | read (p : Path) (next : List UInt8 → Script α)
  | write (p : Path) (bytes : List UInt8) (next : Script α)

namespace Script

def bind {α β : Type} : Script α → (α → Script β) → Script β
  | done a, f => f a
  | crash e, _ => crash e
  | exists? p next, f => exists? p fun b => (next b).bind f
  | wildcard keep next, f => wildcard keep fun ps => (next ps).bind f
  | mkdirP p next, f => mkdirP p (next.bind f)
  | touch p next, f => touch p (next.bind f)
  | copy src dst next, f => copy src dst (next.bind f)
  | read p next, f => read p fun bytes => (next bytes).bind f
  | write p bytes next, f => write p bytes (next.bind f)

instance : Monad Script where
  pure := done
  bind := bind

end Script

/-! Each operation as a script of its own. -/

def File.exists? (p : Path) : Script Bool := .exists? p .done
def File.wildcard (keep : Path → Bool) : Script (List Path) := .wildcard keep .done
def File.mkdir_p (p : Path) : Script Unit := .mkdirP p (.done ())
def File.touch (p : Path) : Script Unit := .touch p (.done ())
def File.cp (src dst : Path) : Script Unit := .copy src dst (.done ())
def File.read (p : Path) : Script (List UInt8) := .read p .done
def File.write (p : Path) (bytes : List UInt8) : Script Unit := .write p bytes (.done ())

def wildcardIn (t : Tree) (keep : Path → Bool) : List Path :=
  ((t.entries.map Prod.fst).filter keep).insertionSort fun p q => joinSegs p ≤ joinSegs q

/-- Renews the times of what is there; where nothing is, an empty file is made. -/
def touchIn (t : Tree) (p : Path) : Except OSError Tree :=
  match t.find? p with
  | some .dangling => t.write p []
  | some _ => .ok t
  | none => t.write p []

def copyIn (t : Tree) (src dst : Path) : Except OSError Tree :=
  match t.read src with
  | .ok bytes => t.write dst bytes
  | .error e => .error e

theorem mem_wildcardIn (t : Tree) (keep : Path → Bool) (p : Path) :
    p ∈ wildcardIn t keep ↔ (∃ e, (p, e) ∈ t.entries) ∧ keep p = true := by
  simp [wildcardIn, List.mem_insertionSort]

def exec {α : Type} : Script α → Tree → Tree × Except Crash α
  | .done a, t => (t, .ok a)
  | .crash e, t => (t, .error e)
  | .exists? p next, t => exec (next (t.exists p)) t
  | .wildcard keep next, t => exec (next (wildcardIn t keep)) t
  | .mkdirP p next, t =>
    match t.mkdirs p with
    | .ok t' => exec next t'
    | .error e => (t, .error (.file e))
  | .touch p next, t =>
    match touchIn t p with
    | .ok t' => exec next t'
    | .error e => (t, .error (.file e))
  | .copy src dst next, t =>
    match copyIn t src dst with
    | .ok t' => exec next t'
    | .error e => (t, .error (.file e))
  | .read p next, t =>
    match t.read p with
    | .ok bytes => exec (next bytes) t
    | .error e => (t, .error (.file e))
  | .write p bytes next, t =>
    match t.write p bytes with
    | .ok t' => exec next t'
    | .error e => (t, .error (.file e))

def continueWith {α β : Type} (f : α → Script β) : Tree × Except Crash α → Tree × Except Crash β
  | (t, .ok a) => exec (f a) t
  | (t, .error e) => (t, .error e)

theorem exec_bind {α β : Type} (f : α → Script β) (x : Script α) :
    ∀ t, exec (x >>= f) t = continueWith f (exec x t) := by
  have main : ∀ t, exec (x.bind f) t = continueWith f (exec x t) := by
    induction x with
    | done a => intro t; rfl
    | crash e => intro t; rfl
    | exists? p next ih => intro t; exact ih _ t
    | wildcard keep next ih => intro t; exact ih _ t
    | mkdirP p next ih =>
        intro t
        simp only [Script.bind, exec]
        cases t.mkdirs p with
        | ok t' => exact ih t'
        | error e => rfl
    | touch p next ih =>
        intro t
        simp only [Script.bind, exec]
        cases touchIn t p with
        | ok t' => exact ih t'
        | error e => rfl
    | copy src dst next ih =>
        intro t
        simp only [Script.bind, exec]
        cases copyIn t src dst with
        | ok t' => exact ih t'
        | error e => rfl
    | read p next ih =>
        intro t
        simp only [Script.bind, exec]
        cases t.read p with
        | ok bytes => exact ih bytes t
        | error e => rfl
    | write p bytes next ih =>
        intro t
        simp only [Script.bind, exec]
        cases t.write p bytes with
        | ok t' => exact ih t'
        | error e => rfl
  exact main

@[simp] theorem continueWith_ok {α β : Type} (f : α → Script β) (t : Tree) (a : α) :
    continueWith f (t, .ok a) = exec (f a) t := rfl

/-! ## Single operations -/

def outcome (t : Tree) : Except OSError Tree → Tree × Except Crash Unit
  | .ok t' => (t', .ok ())
  | .error e => (t, .error (.file e))

@[simp] theorem outcome_ok (t t' : Tree) : outcome t (.ok t') = (t', .ok ()) := rfl

theorem exec_exists? (p : Path) (t : Tree) : exec (File.exists? p) t = (t, .ok (t.exists p)) := rfl

theorem exec_wildcard (keep : Path → Bool) (t : Tree) :
    exec (File.wildcard keep) t = (t, .ok (wildcardIn t keep)) := rfl

theorem exec_mkdir_p (p : Path) (t : Tree) : exec (File.mkdir_p p) t = outcome t (t.mkdirs p) := by
  unfold File.mkdir_p exec
  cases t.mkdirs p <;> rfl

theorem exec_touch (p : Path) (t : Tree) : exec (File.touch p) t = outcome t (touchIn t p) := by
  unfold File.touch exec
  cases touchIn t p <;> rfl

theorem exec_cp (src dst : Path) (t : Tree) :
    exec (File.cp src dst) t = outcome t (copyIn t src dst) := by
  unfold File.cp exec
  cases copyIn t src dst <;> rfl

theorem exec_read {p : Path} {t : Tree} {bytes : List UInt8} (h : t.read p = .ok bytes) :
    exec (File.read p) t = (t, .ok bytes) := by
  rw [File.read, exec, h]
  rfl

theorem exec_write (p : Path) (bytes : List UInt8) (t : Tree) :
    exec (File.write p bytes) t = outcome t (t.write p bytes) := by
  unfold File.write exec
  cases t.write p bytes <;> rfl

/-! ## Runs cut off

A run can be cut off between two operations, and also inside one: a call that makes
directories has made some of them, a file that is being written holds a beginning of
what it is to hold, none of it at first. -/

def thenCuts (r : Except OSError Tree) (next : Tree → List Tree) : List Tree :=
  match r with
  | .ok t' => next t'
  | .error _ => []

def mkdirsCuts (t : Tree) (p : Path) : List Tree :=
  p.inits.flatMap fun q => thenCuts (t.mkdirs q) fun t' => [t']

def writeCuts (t : Tree) (p : Path) (bytes : List UInt8) : List Tree :=
  bytes.inits.flatMap fun part => thenCuts (t.write p part) fun t' => [t']

/-- The trees that a run cut off at some point leaves. -/
def cuts {α : Type} : Script α → Tree → List Tree
  | .done _, t => [t]
  | .crash _, t => [t]
  | .exists? p next, t => cuts (next (t.exists p)) t
  | .wildcard keep next, t => cuts (next (wildcardIn t keep)) t
  | .mkdirP p next, t => mkdirsCuts t p ++ thenCuts (t.mkdirs p) (cuts next)
  | .touch p next, t => t :: thenCuts (touchIn t p) (cuts next)
  | .copy src dst next, t =>
    match t.read src with
    | .ok bytes => t :: (writeCuts t dst bytes ++ thenCuts (t.write dst bytes) (cuts next))
    | .error _ => [t]
  | .read p next, t =>
    match t.read p with
    | .ok bytes => cuts (next bytes) t
    | .error _ => [t]
  | .write p bytes next, t => t :: (writeCuts t p bytes ++ thenCuts (t.write p bytes) (cuts next))

theorem mem_thenCuts {r : Except OSError Tree} {next : Tree → List Tree} {c : Tree} :
    c ∈ thenCuts r next ↔ ∃ t', r = .ok t' ∧ c ∈ next t' := by
  cases r <;> simp [thenCuts]

theorem mem_mkdirsCuts {t c : Tree} {p : Path} :
    c ∈ mkdirsCuts t p ↔ ∃ q, q <+: p ∧ t.mkdirs q = .ok c := by
  simp [mkdirsCuts, mem_thenCuts]

theorem mem_writeCuts {t c : Tree} {p : Path} {bytes : List UInt8} :
    c ∈ writeCuts t p bytes ↔ ∃ part, part <+: bytes ∧ t.write p part = .ok c := by
  simp [writeCuts, mem_thenCuts]

/-- A cut in a sequence is in its first part, or after it in the second. -/
theorem mem_cuts_bind {α β : Type} (f : α → Script β) (x : Script α) (c : Tree) :
    ∀ t, c ∈ cuts (x >>= f) t →
      c ∈ cuts x t ∨ ∃ t' a, exec x t = (t', .ok a) ∧ c ∈ cuts (f a) t' := by
  have main : ∀ t, c ∈ cuts (x.bind f) t →
      c ∈ cuts x t ∨ ∃ t' a, exec x t = (t', .ok a) ∧ c ∈ cuts (f a) t' := by
    induction x with
    | done a => intro t hc; exact Or.inr ⟨t, a, rfl, hc⟩
    | crash e => intro t hc; exact Or.inl hc
    | exists? p next ih => intro t hc; exact ih _ t hc
    | wildcard keep next ih => intro t hc; exact ih _ t hc
    | mkdirP p next ih =>
        intro t hc
        simp only [Script.bind, cuts, exec, List.mem_append, mem_thenCuts] at hc ⊢
        rcases hc with hc | ⟨t', ht', hc⟩
        · exact Or.inl (Or.inl hc)
        · rw [ht']
          exact (ih t' hc).imp (fun h => Or.inr ⟨t', rfl, h⟩) id
    | touch p next ih =>
        intro t hc
        simp only [Script.bind, cuts, exec, List.mem_cons, mem_thenCuts] at hc ⊢
        rcases hc with hc | ⟨t', ht', hc⟩
        · exact Or.inl (Or.inl hc)
        · rw [ht']
          exact (ih t' hc).imp (fun h => Or.inr ⟨t', rfl, h⟩) id
    | copy src dst next ih =>
        intro t hc
        simp only [Script.bind, cuts, exec, copyIn] at hc ⊢
        cases hread : t.read src with
        | error e => rw [hread] at hc; exact Or.inl hc
        | ok bytes =>
            simp only [hread, List.mem_cons, List.mem_append, mem_thenCuts] at hc ⊢
            rcases hc with hc | hc | ⟨t', ht', hc⟩
            · exact Or.inl (Or.inl hc)
            · exact Or.inl (Or.inr (Or.inl hc))
            · rw [ht']
              exact (ih t' hc).imp (fun h => Or.inr (Or.inr ⟨t', rfl, h⟩)) id
    | read p next ih =>
        intro t hc
        simp only [Script.bind, cuts, exec] at hc ⊢
        cases hread : t.read p with
        | error e => rw [hread] at hc; exact Or.inl hc
        | ok bytes =>
            rw [hread] at hc
            exact ih bytes t hc
    | write p bytes next ih =>
        intro t hc
        simp only [Script.bind, cuts, exec, List.mem_cons, List.mem_append, mem_thenCuts] at hc ⊢
        rcases hc with hc | hc | ⟨t', ht', hc⟩
        · exact Or.inl (Or.inl hc)
        · exact Or.inl (Or.inr (Or.inl hc))
        · rw [ht']
          exact (ih t' hc).imp (fun h => Or.inr (Or.inr ⟨t', rfl, h⟩)) id
  exact main

theorem exec_mem_cuts {α : Type} (x : Script α) : ∀ t, (exec x t).1 ∈ cuts x t := by
  induction x with
  | done a => intro t; exact List.mem_singleton.mpr rfl
  | crash e => intro t; exact List.mem_singleton.mpr rfl
  | exists? p next ih => intro t; exact ih _ t
  | wildcard keep next ih => intro t; exact ih _ t
  | mkdirP p next ih =>
      intro t
      simp only [exec, cuts, List.mem_append, mem_thenCuts, mem_mkdirsCuts]
      cases t.mkdirs p with
      | error e => exact Or.inl ⟨[], List.nil_prefix, rfl⟩
      | ok t' => exact Or.inr ⟨t', rfl, ih t'⟩
  | touch p next ih =>
      intro t
      simp only [exec, cuts, List.mem_cons, mem_thenCuts]
      cases touchIn t p with
      | error e => exact Or.inl rfl
      | ok t' => exact Or.inr ⟨t', rfl, ih t'⟩
  | copy src dst next ih =>
      intro t
      simp only [exec, cuts, copyIn]
      cases t.read src with
      | error e => exact List.mem_singleton.mpr rfl
      | ok bytes =>
          simp only [List.mem_cons, List.mem_append, mem_thenCuts]
          cases t.write dst bytes with
          | error e => exact Or.inl rfl
          | ok t' => exact Or.inr (Or.inr ⟨t', rfl, ih t'⟩)
  | read p next ih =>
      intro t
      simp only [exec, cuts]
      cases t.read p with
      | error e => exact List.mem_singleton.mpr rfl
      | ok bytes => exact ih bytes t
  | write p bytes next ih =>
      intro t
      simp only [exec, cuts, List.mem_cons, List.mem_append, mem_thenCuts]
      cases t.write p bytes with
      | error e => exact Or.inl rfl
      | ok t' => exact Or.inr (Or.inr ⟨t', rfl, ih t'⟩)

/-! Single operations cut off. -/

section Cuts
variable {p : Path} {t c : Tree}

theorem cuts_exists? (p : Path) (t : Tree) : cuts (File.exists? p) t = [t] := rfl

theorem cuts_wildcard (keep : Path → Bool) (t : Tree) : cuts (File.wildcard keep) t = [t] := rfl

theorem mem_cuts_mkdir_p (h : c ∈ cuts (File.mkdir_p p) t) : ∃ q, q <+: p ∧ t.mkdirs q = .ok c := by
  simp only [File.mkdir_p, cuts, List.mem_append, mem_mkdirsCuts, mem_thenCuts,
    List.mem_singleton] at h
  rcases h with h | ⟨t', ht', rfl⟩
  · exact h
  · exact ⟨p, List.prefix_rfl, ht'⟩

theorem mem_cuts_read (h : c ∈ cuts (File.read p) t) : c = t := by
  unfold File.read cuts at h
  split at h
  · exact List.mem_singleton.mp h
  · exact List.mem_singleton.mp h

theorem mem_cuts_write {bytes : List UInt8} (h : c ∈ cuts (File.write p bytes) t) :
    c = t ∨ ∃ part, part <+: bytes ∧ t.write p part = .ok c := by
  simp only [File.write, cuts, List.mem_cons, List.mem_append, mem_writeCuts, mem_thenCuts,
    List.not_mem_nil, or_false] at h
  rcases h with h | h | ⟨t', ht', rfl⟩
  · exact Or.inl h
  · exact Or.inr h
  · exact Or.inr ⟨bytes, List.prefix_rfl, ht'⟩

theorem mem_cuts_cp {src : Path} (h : c ∈ cuts (File.cp src p) t) :
    c = t ∨ ∃ bytes part, t.read src = .ok bytes ∧ part <+: bytes ∧ t.write p part = .ok c := by
  cases hread : t.read src with
  | error e =>
      simp only [File.cp, cuts, hread] at h
      exact Or.inl (List.mem_singleton.mp h)
  | ok bytes =>
      simp only [File.cp, cuts, hread, List.mem_cons, List.mem_append, mem_writeCuts, mem_thenCuts,
        List.not_mem_nil, or_false] at h
      rcases h with h | ⟨part, hpart, hwrite⟩ | ⟨t', ht', rfl⟩
      · exact Or.inl h
      · exact Or.inr ⟨bytes, part, rfl, hpart, hwrite⟩
      · exact Or.inr ⟨bytes, bytes, rfl, List.prefix_rfl, ht'⟩

end Cuts

end FileScript
