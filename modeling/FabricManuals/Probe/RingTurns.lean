import FabricManuals.Lib.Turns
import FabricManuals.Probe.Lockstep

/-! # How the ring is scheduled

In every phase one of the two has something to do and the other spins, so the order of
the turns is fixed.  A schedule brings the probe to its end iff it gives out these
turns, and on one processor each round trip costs two changes of the process. -/
set_option autoImplicit false

namespace ShmRing

open Transition Turns

/-- The parent stores a request, the child notices, loads, tests and answers, the parent
notices and records. -/
def roundTurns : List Process := [.parent, .child, .child, .child, .child, .parent, .parent]

def stopTurns : List Process := [.parent, .child, .child, .child, .parent]

def turns : Nat → List Process
  | 0 => stopTurns
  | k + 1 => roundTurns ++ turns k

def Complete (n : Nat) (s : State) : Prop := Final s ∧ samples s.log = List.range' 1 n

def reaped (n : Nat) : State := ⟨UINT64_MAX, .ofNat n, .done, .exited, UINT64_MAX, schedule n⟩

def ready (n k : Nat) : State :=
  ⟨.ofNat k, .ofNat k, loopTest n (k + 1), .spin, .ofNat k, rounds k⟩

section Courses
variable {n : Nat}

/-- One turn: the other process has nothing but its spinning to do. -/
theorem turn_parent {s s' last : State} {word : List Process} (hmove : parentStep n s = some s')
    (hne : s' ≠ s) (hwait : next (step n) .child s = s) (hrest : Course (step n) s' word last) :
    Course (step n) s (.parent :: word) last := by
  refine .turn (by rw [next, step, hmove]; rfl) hne ?_ hrest
  intro b hb
  cases b with
  | parent => exact absurd rfl hb
  | child => exact hwait

theorem turn_child {s s' last : State} {word : List Process} (hmove : childStep s = some s')
    (hne : s' ≠ s) (hwait : next (step n) .parent s = s) (hrest : Course (step n) s' word last) :
    Course (step n) s (.child :: word) last := by
  refine .turn (by rw [next, step, hmove]; rfl) hne ?_ hrest
  intro b hb
  cases b with
  | parent => exact hwait
  | child => exact absurd rfl hb

theorem next_child_spin {s : State} (hpc : s.child = .spin) (hreq : s.req = s.seen) :
    next (step n) .child s = s := by
  cases hstep : childStep s with
  | none => rw [next, step, hstep]; rfl
  | some s' =>
      rw [next, step, hstep]
      exact child_spins hpc hreq hstep

theorem next_parent_spin {s : State} {i : Nat} (hpc : s.parent = .loadRsp i) (hrsp : s.rsp ≠ .ofNat i) :
    next (step n) .parent s = s := by
  cases hstep : parentStep n s with
  | none => rw [next, step, hstep]; rfl
  | some s' =>
      rw [next, step, hstep]
      exact parent_spins hpc hrsp hstep

theorem child_notices {s : State} (hpc : s.child = .spin) (hreq : s.req ≠ s.seen) :
    childStep s = some { s with child := .loadSeen } := by
  simp only [childStep, hpc, if_neg hreq]

theorem child_goes_on {s : State} (hpc : s.child = .test) (hseen : s.seen ≠ UINT64_MAX) :
    childStep s = some { s with child := .storeRsp } := by
  simp only [childStep, hpc, if_neg hseen]

theorem child_leaves {s : State} (hpc : s.child = .test) (hseen : s.seen = UINT64_MAX) :
    childStep s = some { s with child := .exited } := by
  simp only [childStep, hpc, if_pos hseen]

theorem parent_notices {s : State} {i : Nat} (hpc : s.parent = .loadRsp i) (hrsp : s.rsp = .ofNat i) :
    parentStep n s = some { s with parent := .record i } := by
  simp only [parentStep, hpc, if_pos hrsp]

theorem course_round (hmax : n < 2 ^ 64 - 1) {k : Nat} (hk : k < n) {word : List Process} {last : State}
    (hrest : Course (step n) (ready n (k + 1)) word last) :
    Course (step n) (ready n k) (roundTurns ++ word) last := by
  have hspins : UInt64.ofNat k ≠ .ofNat (k + 1) := (ofNat_succ_ne k).symm
  have hnotStop : UInt64.ofNat (k + 1) ≠ UINT64_MAX := ofNat_ne_max hmax hk
  rw [ready, loopTest, if_pos (Nat.succ_le_of_lt hk)]
  apply turn_parent rfl (by simp) (next_child_spin rfl rfl)
  apply turn_child (child_notices rfl (ofNat_succ_ne k)) (by simp) (next_parent_spin rfl hspins)
  apply turn_child rfl (by simp) (next_parent_spin rfl hspins)
  apply turn_child (child_goes_on rfl hnotStop) (by simp) (next_parent_spin rfl hspins)
  apply turn_child rfl (by simp) (next_parent_spin rfl hspins)
  apply turn_parent (parent_notices rfl rfl) (by simp) (next_child_spin rfl rfl)
  apply turn_parent rfl (by simp) (next_child_spin rfl rfl)
  simpa [ready, rounds, round, List.append_assoc] using hrest

theorem course_stop (hmax : n < 2 ^ 64 - 1) :
    Course (step n) (ready n n) stopTurns (reaped n) := by
  have hnotStop : UINT64_MAX ≠ UInt64.ofNat n := (ofNat_ne_max hmax le_rfl).symm
  rw [ready, loopTest, if_neg (Nat.not_succ_le_self n)]
  apply turn_parent rfl (by simp) (next_child_spin rfl rfl)
  apply turn_child (child_notices rfl hnotStop) (by simp) rfl
  apply turn_child rfl (by simp) rfl
  apply turn_child (child_leaves rfl rfl) (by simp) rfl
  apply turn_parent rfl (by simp) rfl
  refine .finished fun process => ?_
  cases process <;> rfl

theorem course_turns (hmax : n < 2 ^ 64 - 1) {k : Nat} (hk : k ≤ n) :
    Course (step n) (ready n (n - k)) (turns k) (reaped n) := by
  induction k with
  | zero => exact course_stop hmax
  | succ k ih =>
      apply course_round hmax (by omega)
      rw [show n - (k + 1) + 1 = n - k by omega]
      exact ih (by omega)

theorem complete_iff_reaped (hmax : n < 2 ^ 64 - 1) {s : State} (h : Reachable n s) :
    Complete n s ↔ s = reaped n := by
  constructor
  · rintro ⟨⟨hparent, -⟩, -⟩
    cases phase_of_reachable hmax h with
    | reaped => rfl
    | _ => cases hparent
  · rintro rfl
    exact ⟨⟨rfl, rfl⟩, samples_schedule n⟩

theorem complete_iff_sublist (hmax : n < 2 ^ 64 - 1) (l : List Process) :
    Complete n (play (step n) l (start n)) ↔ (turns n).Sublist l := by
  have hcourse := course_turns hmax (le_refl n)
  rw [Nat.sub_self] at hcourse
  rw [complete_iff_reaped hmax (reachable_play l Relation.ReflTransGen.refl)]
  exact play_eq_last_iff hcourse l

end Courses

theorem turns_eq_cons (k : Nat) : ∃ rest, turns k = .parent :: rest := by
  cases k with
  | zero => exact ⟨_, rfl⟩
  | succ k => exact ⟨_, rfl⟩

theorem handovers_turns (k : Nat) : handovers (turns k) = 2 * k + 2 := by
  induction k with
  | zero => rfl
  | succ k ih =>
      obtain ⟨rest, hrest⟩ := turns_eq_cons k
      rw [hrest] at ih
      rw [turns, hrest]
      simp only [roundTurns, List.cons_append, List.nil_append, handovers, ih]
      simp
      omega

/-- A schedule completes the probe iff it has the turns in their order; then it goes back
and forth twice for every round, and every schedule that keeps giving both a turn has
an opening that completes it. -/
theorem complete_iff_turns {n : Nat} (hmax : n < 2 ^ 64 - 1) :
    (∀ l, Complete n (play (step n) l (start n)) ↔ (turns n).Sublist l) ∧
      (∀ l, Complete n (play (step n) l (start n)) → 2 * n + 2 ≤ handovers l) ∧
      ∀ schedule, Fair schedule →
        ∃ k, ∀ m, k ≤ m → Complete n (play (step n) (opening schedule m) (start n)) := by
  refine ⟨complete_iff_sublist hmax, fun l h => ?_, fun schedule hfair => ?_⟩
  · rw [← handovers_turns]
    exact handovers_le_of_sublist ((complete_iff_sublist hmax l).mp h)
  · obtain ⟨k, hk⟩ := hfair.sublist_opening (turns n)
    refine ⟨k, fun m hm => (complete_iff_sublist hmax _).mpr ?_⟩
    exact hk.trans (opening_mono schedule hm).sublist

theorem complete_iff_turns_three :
    Complete 3 (play (step 3) (turns 3) (start 3)) ∧
      ¬ Complete 3 (play (step 3) (List.replicate 40 .parent) (start 3)) := by
  have hthree := (complete_iff_turns (by decide : 3 < 2 ^ 64 - 1)).1
  exact ⟨(hthree _).mpr (List.Sublist.refl _), fun h => absurd ((hthree _).mp h) (by decide)⟩

end ShmRing
