import Mathlib.Order.Lattice
import Mathlib.Data.List.Pairwise
import Mathlib.Order.Defs.LinearOrder

/-! # Release stores and acquire loads

A location holds the messages stored to it, each with its place in the location's own
order and the view its thread had.  A load may return any message that is not older
than what its thread has seen, and takes over the message's view; a store goes to any
free place behind what its thread has seen.

A location that only one thread writes to keeps its messages in the order of the
stores, and a thread that has seen the newest of them reads nothing else. -/
set_option autoImplicit false

namespace ReleaseAcquire

variable {ℓ τ ν : Type}

abbrev View (ℓ τ : Type) := ℓ → τ

structure Message (ℓ τ ν : Type) where
  time : τ
  value : ν
  view : View ℓ τ

/-- The messages of each location, in the order they were stored. -/
abbrev Memory (ℓ τ ν : Type) := ℓ → List (Message ℓ τ ν)

/-- The thread has seen the newest message of the location. -/
def Fresh (view front : View ℓ τ) (x : ℓ) : Prop := view x = front x

def newest (M : Memory ℓ τ ν) (x : ℓ) : Option ν := (M x).getLast?.map Message.value

section Update
variable [DecidableEq ℓ]

def put (f : View ℓ τ) (x : ℓ) (t : τ) : View ℓ τ := fun y => if y = x then t else f y

def append (M : Memory ℓ τ ν) (x : ℓ) (m : Message ℓ τ ν) : Memory ℓ τ ν :=
  fun y => if y = x then M y ++ [m] else M y

@[simp] theorem put_same (f : View ℓ τ) (x : ℓ) (t : τ) : put f x t x = t := if_pos rfl

@[simp] theorem put_ne (f : View ℓ τ) {x y : ℓ} (h : y ≠ x) (t : τ) : put f x t y = f y := if_neg h

@[simp] theorem append_same (M : Memory ℓ τ ν) (x : ℓ) (m : Message ℓ τ ν) :
    append M x m x = M x ++ [m] := if_pos rfl

@[simp] theorem append_ne (M : Memory ℓ τ ν) {x y : ℓ} (h : y ≠ x) (m : Message ℓ τ ν) :
    append M x m y = M y := if_neg h

theorem newest_append (M : Memory ℓ τ ν) (x : ℓ) (m : Message ℓ τ ν) :
    newest (append M x m) x = some m.value := by
  rw [newest, append_same, List.getLast?_concat]
  rfl

theorem newest_append_ne (M : Memory ℓ τ ν) {x y : ℓ} (h : y ≠ x) (m : Message ℓ τ ν) :
    newest (append M x m) y = newest M y := by
  rw [newest, append_ne M h, newest]

/-! What a store at `x` does to what the threads have seen. -/

theorem fresh_put (view front : View ℓ τ) (x : ℓ) (t : τ) : Fresh (put view x t) (put front x t) x := by
  rw [Fresh, put_same, put_same]

theorem fresh_put_ne {view front : View ℓ τ} {x y : ℓ} (h : Fresh view front y) (hy : y ≠ x) (t : τ) :
    Fresh (put view x t) (put front x t) y := by
  rw [Fresh, put_ne _ hy, put_ne _ hy]
  exact h

theorem fresh_front_put {view front : View ℓ τ} {x y : ℓ} (h : Fresh view front y) (hy : y ≠ x) (t : τ) :
    Fresh view (put front x t) y := by
  rw [Fresh, put_ne _ hy]
  exact h

end Update

variable [LinearOrder τ]

def join (v w : View ℓ τ) : View ℓ τ := fun y => max (v y) (w y)

/-- `atomic_store_explicit(x, value, memory_order_release)` by a thread with this view. -/
def store [DecidableEq ℓ] (M : Memory ℓ τ ν) (view : View ℓ τ) (x : ℓ) (t : τ) (value : ν) :
    Option (Memory ℓ τ ν × View ℓ τ) :=
  if view x < t ∧ ∀ m ∈ M x, m.time ≠ t then
    some (append M x ⟨t, value, put view x t⟩, put view x t)
  else none

/-- `atomic_load_explicit(x, memory_order_acquire)` that returns the message numbered `i`. -/
def load (M : Memory ℓ τ ν) (view : View ℓ τ) (x : ℓ) (i : Nat) : Option (ν × View ℓ τ) :=
  match (M x)[i]? with
  | none => none
  | some m => if view x ≤ m.time then some (m.value, join view m.view) else none

/-- The messages stand in the order of their places, `front` has the newest ones, and no
message knows of more. -/
structure Ordered (M : Memory ℓ τ ν) (front : View ℓ τ) : Prop where
  last : ∀ x, ∃ pre m, M x = pre ++ [m] ∧ m.time = front x
  order : ∀ x, (M x).Pairwise fun m m' => m.time < m'.time
  own : ∀ x, ∀ m ∈ M x, m.view x = m.time
  known : ∀ x, ∀ m ∈ M x, ∀ y, m.view y ≤ front y

def Within (view front : View ℓ τ) : Prop := ∀ y, view y ≤ front y

/-- There is one newer message than the thread has seen, and the one it has seen has
the value `old`. -/
def Behind (M : Memory ℓ τ ν) (view : View ℓ τ) (x : ℓ) (old : ν) : Prop :=
  ∃ pre m m', M x = pre ++ [m, m'] ∧ view x = m.time ∧ m.value = old

variable {M M' : Memory ℓ τ ν} {front view view' : View ℓ τ} {x : ℓ}

theorem Ordered.le_front (h : Ordered M front) {m : Message ℓ τ ν} (hm : m ∈ M x) :
    m.time ≤ front x := by
  rw [← h.own x m hm]
  exact h.known x m hm x

theorem ordered_start (t : τ) (value : ν) :
    Ordered (fun _ : ℓ => [(⟨t, value, fun _ => t⟩ : Message ℓ τ ν)]) fun _ => t := by
  constructor
  · exact fun x => ⟨[], _, rfl, rfl⟩
  · exact fun x => List.pairwise_singleton _ _
  · intro x m hm
    rw [List.mem_singleton.mp hm]
  · intro x m hm y
    rw [List.mem_singleton.mp hm]

theorem load_eq_some {i : Nat} {value : ν} (h : load M view x i = some (value, view')) :
    ∃ m ∈ M x, view x ≤ m.time ∧ value = m.value ∧ view' = join view m.view := by
  unfold load at h
  cases hm : (M x)[i]? with
  | none =>
      rw [hm] at h
      cases h
  | some m =>
      rw [hm] at h
      obtain ⟨hle, heq⟩ := Option.ite_none_right_eq_some.mp h
      obtain ⟨rfl, rfl⟩ := Prod.mk.inj (Option.some.inj heq)
      exact ⟨m, List.mem_of_getElem? hm, hle, rfl, rfl⟩

theorem fresh_join (h : Ordered M front) {m : Message ℓ τ ν} (hm : m ∈ M x) {y : ℓ}
    (hfresh : Fresh view front y) : Fresh (join view m.view) front y := by
  have hle : m.view y ≤ view y := hfresh.symm ▸ h.known x m hm y
  rw [Fresh, join, max_eq_left hle]
  exact hfresh

theorem within_join (h : Ordered M front) (hwithin : Within view front) {m : Message ℓ τ ν}
    (hm : m ∈ M x) : Within (join view m.view) front :=
  fun y => max_le (hwithin y) (h.known x m hm y)

theorem newest_of_fresh (h : Ordered M front) (hfresh : Fresh view front x) {m : Message ℓ τ ν}
    (hm : m ∈ M x) (hle : view x ≤ m.time) : newest M x = some m.value := by
  obtain ⟨pre, last, hM, htime⟩ := h.last x
  have horder := h.order x
  rw [hM] at hm horder
  rw [newest, hM, List.getLast?_concat]
  rcases List.mem_append.mp hm with hm | hm
  · have hlt := (List.pairwise_append.mp horder).2.2 m hm last (List.mem_singleton_self last)
    rw [htime, ← hfresh] at hlt
    exact absurd hle (not_le.mpr hlt)
  · rw [List.mem_singleton.mp hm]
    rfl

/-- A thread that is one message behind loads the old one and stays, or the new one and
is up to date. -/
theorem load_of_behind (h : Ordered M front) {old : ν} (hbehind : Behind M view x old)
    {m : Message ℓ τ ν} (hm : m ∈ M x) (hle : view x ≤ m.time) :
    m.value = old ∧ join view m.view x = view x ∨
      newest M x = some m.value ∧ Fresh (join view m.view) front x := by
  obtain ⟨pre, seen, new, hM, hview, hold⟩ := hbehind
  obtain ⟨pre', last, hM', htime⟩ := h.last x
  obtain ⟨-, hnew⟩ : pre ++ [seen] = pre' ∧ new = last := by
    have heq : (pre ++ [seen]) ++ [new] = pre' ++ [last] := by
      rw [← hM', hM, List.append_assoc]
      rfl
    simpa using List.append_inj' heq rfl
  have horder := h.order x
  rw [hM] at horder
  have hown := h.own x m hm
  rw [hM, List.mem_append, List.mem_cons, List.mem_singleton] at hm
  rcases hm with hm | rfl | rfl
  · have hlt := (List.pairwise_append.mp horder).2.2 m hm seen List.mem_cons_self
    rw [hview] at hle
    exact absurd hle (not_le.mpr hlt)
  · left
    refine ⟨hold, ?_⟩
    rw [join, hown, hview, max_self]
  · right
    refine ⟨by rw [newest, hM']; simp [hnew], ?_⟩
    rw [Fresh, join, hown, max_eq_right hle, hnew, htime]

theorem exists_load (h : Ordered M front) (hwithin : Within view front) :
    ∃ i m, m ∈ M x ∧ load M view x i = some (m.value, join view m.view) ∧
      newest M x = some m.value ∧ Fresh (join view m.view) front x := by
  obtain ⟨pre, m, hM, htime⟩ := h.last x
  have hm : m ∈ M x := by
    rw [hM]
    exact List.mem_append_right _ (List.mem_singleton_self m)
  have hle : view x ≤ m.time := htime ▸ hwithin x
  refine ⟨pre.length, m, hm, ?_, by rw [newest, hM, List.getLast?_concat]; rfl, ?_⟩
  · have hget : (M x)[pre.length]? = some m := by
      rw [hM]
      exact List.getElem?_concat_length
    rw [load, hget]
    exact if_pos hle
  · rw [Fresh, join, h.own x m hm, max_eq_right hle, htime]

section Stores
variable [DecidableEq ℓ]

theorem store_eq_some {t : τ} {value : ν} (h : store M view x t value = some (M', view')) :
    view x < t ∧ M' = append M x ⟨t, value, put view x t⟩ ∧ view' = put view x t := by
  obtain ⟨⟨hlt, -⟩, heq⟩ := Option.ite_none_right_eq_some.mp h
  obtain ⟨rfl, rfl⟩ := Prod.mk.inj (Option.some.inj heq)
  exact ⟨hlt, rfl, rfl⟩

theorem within_put (h : Within view front) (x : ℓ) (t : τ) : Within (put view x t) (put front x t) := by
  intro y
  by_cases hy : y = x
  · rw [hy, put_same, put_same]
  · rw [put_ne _ hy, put_ne _ hy]
    exact h y

theorem within_front_put (h : Within view front) {t : τ} (hlt : front x < t) :
    Within view (put front x t) := by
  intro y
  by_cases hy : y = x
  · rw [hy, put_same]
    exact (h x).trans hlt.le
  · rw [put_ne _ hy]
    exact h y

theorem ordered_store (h : Ordered M front) (hwithin : Within view front) (howner : Fresh view front x)
    {t : τ} (hlt : view x < t) (value : ν) :
    Ordered (append M x ⟨t, value, put view x t⟩) (put front x t) := by
  have hfront : front x < t := howner ▸ hlt
  have hgrow : Within front (put front x t) := within_front_put (fun y => le_refl _) hfront
  constructor
  · intro y
    by_cases hy : y = x
    · subst hy
      exact ⟨M y, _, append_same _ _ _, (put_same _ _ _).symm⟩
    · rw [append_ne _ hy, put_ne _ hy]
      exact h.last y
  · intro y
    by_cases hy : y = x
    · subst hy
      rw [append_same, List.pairwise_append]
      refine ⟨h.order y, List.pairwise_singleton _ _, fun m hm m' hm' => ?_⟩
      rw [List.mem_singleton.mp hm']
      exact (h.le_front hm).trans_lt hfront
    · rw [append_ne _ hy]
      exact h.order y
  · intro y m hm
    by_cases hy : y = x
    · subst hy
      rw [append_same] at hm
      rcases List.mem_append.mp hm with hm | hm
      · exact h.own y m hm
      · rw [List.mem_singleton.mp hm]
        exact put_same _ _ _
    · rw [append_ne _ hy] at hm
      exact h.own y m hm
  · intro y m hm z
    by_cases hy : y = x
    · subst hy
      rw [append_same] at hm
      rcases List.mem_append.mp hm with hm | hm
      · exact (h.known y m hm z).trans (hgrow z)
      · rw [List.mem_singleton.mp hm]
        exact within_put hwithin _ t z
    · rw [append_ne _ hy] at hm
      exact (h.known y m hm z).trans (hgrow z)

theorem behind_of_store (h : Ordered M front) (hfresh : Fresh view front x)
    {old : ν} (hold : newest M x = some old) (m : Message ℓ τ ν) :
    Behind (append M x m) view x old := by
  obtain ⟨pre, last, hM, htime⟩ := h.last x
  refine ⟨pre, last, m, ?_, hfresh.trans htime.symm, ?_⟩
  · rw [append_same, hM, List.append_assoc]
    rfl
  · rw [newest, hM, List.getLast?_concat] at hold
    exact Option.some.inj hold

theorem exists_store [NoMaxOrder τ] (h : Ordered M front) (howner : Fresh view front x) (value : ν) :
    ∃ t, view x < t ∧
      store M view x t value = some (append M x ⟨t, value, put view x t⟩, put view x t) := by
  obtain ⟨t, ht⟩ := exists_gt (view x)
  refine ⟨t, ht, if_pos ⟨ht, fun m hm heq => ?_⟩⟩
  have hle := h.le_front hm
  rw [heq, ← howner] at hle
  exact absurd hle (not_le.mpr ht)

end Stores

end ReleaseAcquire
