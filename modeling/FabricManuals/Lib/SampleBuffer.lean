import Mathlib.Data.List.TakeWhile
import Mathlib.Data.List.Infix

/-! # Sample buffers

Memory from `malloc`, whose cells hold nothing until something is stored, and the
measuring loops that fill it from the front. -/
set_option autoImplicit false

namespace SampleBuffer

section Cells
variable {α : Type}

/-- `none` is a cell that was never written. -/
abbrev Cells (α : Type) := List (Option α)

def malloc (size : Nat) : Cells α := List.replicate size none

def store (s : Cells α) (i : Nat) (x : α) : Cells α := s.set i (some x)

/-- `none` where the program reads what it may not use: an unwritten cell, or one past the end. -/
def load (s : Cells α) (i : Nat) : Option α := s[i]?.join

def loadFirst : Cells α → Nat → Option (List α)
  | _, 0 => some []
  | some x :: s, n + 1 => (loadFirst s n).map (x :: ·)
  | _, _ + 1 => none

def sortFirst (le : α → α → Bool) (s : Cells α) (n : Nat) : Option (Cells α) :=
  (loadFirst s n).map fun xs => (xs.mergeSort le).map some ++ s.drop n

def Holds (s : Cells α) (xs : List α) : Prop := xs.map some <+: s

@[simp] theorem holds_nil (s : Cells α) : Holds s [] := List.nil_prefix

@[simp] theorem length_malloc (size : Nat) : (malloc size : Cells α).length = size :=
  List.length_replicate

@[simp] theorem length_store (s : Cells α) (i : Nat) (x : α) : (store s i x).length = s.length :=
  List.length_set

theorem store_next (xs : List α) (y : Option α) (rest : Cells α) (x : α) :
    store (xs.map some ++ y :: rest) xs.length x = (xs ++ [x]).map some ++ rest := by
  rw [store, List.set_append_right _ _ (by rw [List.length_map]), List.length_map, Nat.sub_self,
    List.set_cons_zero, List.map_append, List.append_assoc]
  rfl

theorem holds_store {s : Cells α} {xs : List α} (h : Holds s xs) (hroom : xs.length < s.length)
    (x : α) : Holds (store s xs.length x) (xs ++ [x]) := by
  obtain ⟨rest, rfl⟩ := h
  cases rest with
  | nil => simp at hroom
  | cons y rest =>
      rw [store_next]
      exact List.prefix_append _ _

theorem loadFirst_eq_some_iff {s : Cells α} {n : Nat} {xs : List α} :
    loadFirst s n = some xs ↔ Holds s xs ∧ xs.length = n := by
  induction n generalizing s xs with
  | zero =>
      rw [loadFirst, Option.some_inj, List.length_eq_zero_iff]
      exact ⟨fun h => ⟨h ▸ holds_nil s, h.symm⟩, fun h => h.2.symm⟩
  | succ n ih =>
      rcases s with _ | ⟨_ | x, s⟩
      · cases xs <;> simp [loadFirst, Holds]
      · cases xs <;> simp [loadFirst, Holds]
      · cases xs with
        | nil => simp [loadFirst]
        | cons y ys =>
            rw [loadFirst, Option.map_eq_some_iff, Holds, List.map_cons, List.cons_prefix_cons,
              Option.some_inj, List.length_cons, Nat.add_right_cancel_iff]
            simp only [List.cons.injEq, ih, Holds]
            constructor
            · rintro ⟨zs, hzs, rfl, rfl⟩
              exact ⟨⟨rfl, hzs.1⟩, hzs.2⟩
            · rintro ⟨⟨rfl, hys⟩, hlen⟩
              exact ⟨ys, ⟨hys, hlen⟩, rfl, rfl⟩

theorem load_eq_some_of_holds {s : Cells α} {xs : List α} (h : Holds s xs) {i : Nat}
    (hi : i < xs.length) : load s i = some xs[i] := by
  obtain ⟨rest, rfl⟩ := h
  rw [load, List.getElem?_append_left (by rwa [List.length_map]), List.getElem?_map,
    List.getElem?_eq_getElem hi]
  rfl

theorem load_of_holds {s : Cells α} {xs : List α} (h : Holds s xs) {i : Nat} {x : α}
    (hx : xs[i]? = some x) : load s i = some x := by
  obtain ⟨hi, rfl⟩ := List.getElem?_eq_some_iff.mp hx
  exact load_eq_some_of_holds h hi

theorem length_le_of_holds {xs ys : List α} {room : Nat}
    (h : Holds (xs.map some ++ malloc room) ys) : ys.length ≤ xs.length := by
  by_contra hlong
  have hload := load_eq_some_of_holds h (i := xs.length) (by omega)
  rw [load, List.getElem?_append_right (by rw [List.length_map]), malloc, List.getElem?_replicate] at hload
  split at hload <;> cases hload

theorem sortFirst_eq_some_iff {le : α → α → Bool} {s s' : Cells α} {n : Nat} :
    sortFirst le s n = some s' ↔ ∃ xs, loadFirst s n = some xs ∧
      (xs.mergeSort le).map some ++ s.drop n = s' := by
  rw [sortFirst, Option.map_eq_some_iff]

theorem length_sortFirst {le : α → α → Bool} {s s' : Cells α} {n : Nat}
    (h : sortFirst le s n = some s') : s'.length = s.length := by
  obtain ⟨xs, hxs, rfl⟩ := sortFirst_eq_some_iff.mp h
  obtain ⟨⟨rest, rfl⟩, rfl⟩ := loadFirst_eq_some_iff.mp hxs
  rw [List.drop_append_of_le_length (by rw [List.length_map]), List.drop_of_length_le (by rw [List.length_map])]
  simp

end Cells

section Loops
variable {α ι : Type}

inductive Turn (α : Type)
  | store (x : α)
  | skip
  | leave
  | undefined
deriving DecidableEq

namespace Turn

def goesOn : Turn α → Bool
  | leave => false
  | _ => true

def stored : Turn α → Option α
  | store x => some x
  | _ => none

end Turn

variable (turn : ι → Turn α)

/-- The loop that takes its samples as `s[n++] = x`; `none` from the first undefined turn on. -/
def fill : List ι → Cells α → Nat → Option (Cells α × Nat)
  | [], s, n => some (s, n)
  | i :: rest, s, n =>
    match turn i with
    | .store x => fill rest (store s n x) (n + 1)
    | .skip => fill rest s n
    | .leave => some (s, n)
    | .undefined => none

/-- The turns up to the one that leaves the loop. -/
def reached (inputs : List ι) : List ι := inputs.takeWhile fun i => (turn i).goesOn

def samples (inputs : List ι) : List α := (reached turn inputs).filterMap fun i => (turn i).stored

def Defined (inputs : List ι) : Prop := ∀ i ∈ reached turn inputs, turn i ≠ .undefined

variable {turn}

theorem reached_cons_of_goesOn {i : ι} (h : (turn i).goesOn = true) (rest : List ι) :
    reached turn (i :: rest) = i :: reached turn rest := by
  rw [reached, List.takeWhile_cons, if_pos h]
  rfl

theorem reached_cons_of_leave {i : ι} (h : turn i = .leave) (rest : List ι) :
    reached turn (i :: rest) = [] := by
  rw [reached, List.takeWhile_cons, h]
  rfl

theorem mem_samples {inputs : List ι} {x : α} :
    x ∈ samples turn inputs ↔ ∃ i ∈ reached turn inputs, turn i = .store x := by
  rw [samples, List.mem_filterMap]
  refine exists_congr fun i => and_congr_right fun _ => ?_
  cases turn i <;> simp [Turn.stored]

theorem samples_cons_store {i : ι} {x : α} (h : turn i = .store x) (rest : List ι) :
    samples turn (i :: rest) = x :: samples turn rest := by
  rw [samples, reached_cons_of_goesOn (by rw [h]; rfl), List.filterMap_cons, h]
  rfl

theorem samples_cons_skip {i : ι} (h : turn i = .skip) (rest : List ι) :
    samples turn (i :: rest) = samples turn rest := by
  rw [samples, reached_cons_of_goesOn (by rw [h]; rfl), List.filterMap_cons, h]
  rfl

theorem samples_cons_leave {i : ι} (h : turn i = .leave) (rest : List ι) :
    samples turn (i :: rest) = [] := by
  rw [samples, reached_cons_of_leave h, List.filterMap_nil]

theorem length_samples_of_store {inputs : List ι} (h : ∀ i ∈ inputs, ∃ x, turn i = .store x) :
    (samples turn inputs).length = inputs.length := by
  induction inputs with
  | nil => rfl
  | cons i rest ih =>
      obtain ⟨⟨x, hx⟩, hrest⟩ := List.forall_mem_cons.mp h
      rw [samples_cons_store hx, List.length_cons, List.length_cons, ih hrest]

theorem defined_cons_iff {i : ι} (h : (turn i).goesOn = true) (rest : List ι) :
    Defined turn (i :: rest) ↔ turn i ≠ .undefined ∧ Defined turn rest := by
  rw [Defined, reached_cons_of_goesOn h, List.forall_mem_cons]
  rfl

theorem fill_of_defined {inputs : List ι} (hdefined : Defined turn inputs) {s : Cells α}
    {xs : List α} (hs : Holds s xs) (hroom : xs.length + inputs.length ≤ s.length) :
    ∃ s', fill turn inputs s xs.length = some (s', (xs ++ samples turn inputs).length) ∧
      Holds s' (xs ++ samples turn inputs) ∧ s'.length = s.length := by
  induction inputs generalizing s xs with
  | nil => exact ⟨s, by simp [fill, samples, reached], by simpa [samples, reached] using hs, rfl⟩
  | cons i rest ih =>
      rw [List.length_cons] at hroom
      cases hi : turn i with
      | store x =>
          have hrest := ((defined_cons_iff (by rw [hi]; rfl) rest).mp hdefined).2
          have hnext := holds_store hs (by omega) x
          obtain ⟨s', hfill, hholds, hlen⟩ := ih hrest hnext (by
            rw [length_store, List.length_append, List.length_singleton]
            omega)
          rw [List.append_assoc, List.singleton_append, ← samples_cons_store hi] at hfill hholds
          rw [List.length_append, List.length_singleton] at hfill
          exact ⟨s', by rw [fill, hi]; exact hfill, hholds, hlen.trans (length_store _ _ _)⟩
      | skip =>
          have hrest := ((defined_cons_iff (by rw [hi]; rfl) rest).mp hdefined).2
          rw [samples_cons_skip hi]
          obtain ⟨s', hfill, hholds, hlen⟩ := ih hrest hs (by omega)
          exact ⟨s', by rw [fill, hi]; exact hfill, hholds, hlen⟩
      | leave =>
          rw [samples_cons_leave hi, List.append_nil]
          exact ⟨s, by rw [fill, hi], hs, rfl⟩
      | undefined => exact absurd hi ((defined_cons_iff (by rw [hi]; rfl) rest).mp hdefined).1

theorem fill_of_not_defined {inputs : List ι} (h : ¬ Defined turn inputs) (s : Cells α) (n : Nat) :
    fill turn inputs s n = none := by
  induction inputs generalizing s n with
  | nil => exact absurd (fun i hi => absurd hi (by simp [reached])) h
  | cons i rest ih =>
      cases hi : turn i with
      | store x =>
          rw [defined_cons_iff (by rw [hi]; rfl), hi] at h
          rw [fill, hi]
          exact ih (fun hrest => h ⟨nofun, hrest⟩) _ _
      | skip =>
          rw [defined_cons_iff (by rw [hi]; rfl), hi] at h
          rw [fill, hi]
          exact ih (fun hrest => h ⟨nofun, hrest⟩) _ _
      | leave => exact absurd (fun j hj => absurd hj (by simp [reached_cons_of_leave hi])) h
      | undefined => rw [fill, hi]

end Loops

end SampleBuffer
