import FabricManuals.Probe.ShmRing
import Mathlib.Algebra.Ring.Nat

/-! # Parent and child go in lockstep

The two are never free to do different things: every reachable state is one of a
chain of phases, and the history is an opening of one schedule. -/
set_option autoImplicit false

namespace ShmRing

open Transition

def round (i : Nat) : List Event := [.req (.ofNat i), .rsp (.ofNat i), .sample i]

def rounds : Nat → List Event
  | 0 => []
  | k + 1 => rounds k ++ round (k + 1)

def schedule (n : Nat) : List Event := rounds n ++ [.req UINT64_MAX]

theorem rounds_isPrefix {k n : Nat} (h : k ≤ n) : rounds k <+: rounds n := by
  induction h with
  | refl => exact List.prefix_rfl
  | step _ ih => exact ih.trans (List.prefix_append _ _)

theorem answers_rounds (n : Nat) : answers (rounds n) = (List.range' 1 n).map UInt64.ofNat := by
  induction n with
  | zero => rfl
  | succ n ih =>
      rw [rounds, answers, List.filterMap_append, ← answers, ih, List.range'_1_concat, List.map_append,
        Nat.add_comm 1 n]
      rfl

theorem samples_rounds (n : Nat) : samples (rounds n) = List.range' 1 n := by
  induction n with
  | zero => rfl
  | succ n ih =>
      rw [rounds, samples, List.filterMap_append, ← samples, ih, List.range'_1_concat, Nat.add_comm 1 n]
      rfl

/-! ## Phases -/

/-- The states of the two, one after the other; `k` rounds are over. -/
inductive Phase (n : Nat) : State → Prop
  | ready {k : Nat} (h : k < n) :
    Phase n ⟨.ofNat k, .ofNat k, .storeReq (k + 1), .spin, .ofNat k, rounds k⟩
  | asked {k : Nat} (h : k < n) :
    Phase n ⟨.ofNat (k + 1), .ofNat k, .loadRsp (k + 1), .spin, .ofNat k,
      rounds k ++ [.req (.ofNat (k + 1))]⟩
  | noticed {k : Nat} (h : k < n) :
    Phase n ⟨.ofNat (k + 1), .ofNat k, .loadRsp (k + 1), .loadSeen, .ofNat k,
      rounds k ++ [.req (.ofNat (k + 1))]⟩
  | loaded {k : Nat} (h : k < n) :
    Phase n ⟨.ofNat (k + 1), .ofNat k, .loadRsp (k + 1), .test, .ofNat (k + 1),
      rounds k ++ [.req (.ofNat (k + 1))]⟩
  | tested {k : Nat} (h : k < n) :
    Phase n ⟨.ofNat (k + 1), .ofNat k, .loadRsp (k + 1), .storeRsp, .ofNat (k + 1),
      rounds k ++ [.req (.ofNat (k + 1))]⟩
  | answered {k : Nat} (h : k < n) :
    Phase n ⟨.ofNat (k + 1), .ofNat (k + 1), .loadRsp (k + 1), .spin, .ofNat (k + 1),
      rounds k ++ [.req (.ofNat (k + 1)), .rsp (.ofNat (k + 1))]⟩
  | timed {k : Nat} (h : k < n) :
    Phase n ⟨.ofNat (k + 1), .ofNat (k + 1), .record (k + 1), .spin, .ofNat (k + 1),
      rounds k ++ [.req (.ofNat (k + 1)), .rsp (.ofNat (k + 1))]⟩
  | finished : Phase n ⟨.ofNat n, .ofNat n, .storeStop, .spin, .ofNat n, rounds n⟩
  | stopped : Phase n ⟨UINT64_MAX, .ofNat n, .waitpid, .spin, .ofNat n, schedule n⟩
  | stopNoticed : Phase n ⟨UINT64_MAX, .ofNat n, .waitpid, .loadSeen, .ofNat n, schedule n⟩
  | stopLoaded : Phase n ⟨UINT64_MAX, .ofNat n, .waitpid, .test, UINT64_MAX, schedule n⟩
  | gone : Phase n ⟨UINT64_MAX, .ofNat n, .waitpid, .exited, UINT64_MAX, schedule n⟩
  | reaped : Phase n ⟨UINT64_MAX, .ofNat n, .done, .exited, UINT64_MAX, schedule n⟩

theorem loopTest_phase {k n : Nat} (h : k ≤ n) :
    Phase n ⟨.ofNat k, .ofNat k, loopTest n (k + 1), .spin, .ofNat k, rounds k⟩ := by
  unfold loopTest
  split
  · next hlt => exact .ready hlt
  · next hge =>
      obtain rfl := Nat.le_antisymm h (Nat.not_lt.mp hge)
      exact .finished

section Runs
variable {n : Nat} {s s' : State}

theorem ofNat_ne_max (hmax : n < 2 ^ 64 - 1) {i : Nat} (h : i ≤ n) : UInt64.ofNat i ≠ UINT64_MAX := by
  intro heq
  have hval := congrArg UInt64.toNat heq
  simp only [UInt64.toNat_ofNat', show UINT64_MAX.toNat = 2 ^ 64 - 1 from rfl] at hval
  omega

theorem ofNat_succ_ne (k : Nat) : UInt64.ofNat (k + 1) ≠ UInt64.ofNat k := by
  intro heq
  have hval := congrArg UInt64.toNat heq
  simp only [UInt64.toNat_ofNat'] at hval
  omega

/-! Each process spins while the other is to move. -/

theorem parent_spins {i : Nat} (hpc : s.parent = .loadRsp i) (hrsp : s.rsp ≠ .ofNat i)
    (hstep : parentStep n s = some s') : s' = s := by
  rw [parentStep, hpc] at hstep
  simp only [if_neg hrsp, Option.some.injEq] at hstep
  rw [← hstep, ← hpc]

theorem child_spins (hpc : s.child = .spin) (hreq : s.req = s.seen) (hstep : childStep s = some s') :
    s' = s := by
  rw [childStep, hpc] at hstep
  simp only [if_pos hreq, Option.some.injEq] at hstep
  rw [← hstep, ← hpc]

theorem phase_parentStep (h : Phase n s) (hstep : parentStep n s = some s') : Phase n s' := by
  cases h with
  | ready h =>
      obtain rfl := Option.some.inj hstep
      exact .asked h
  | asked h => exact parent_spins rfl (ofNat_succ_ne _).symm hstep ▸ .asked h
  | noticed h => exact parent_spins rfl (ofNat_succ_ne _).symm hstep ▸ .noticed h
  | loaded h => exact parent_spins rfl (ofNat_succ_ne _).symm hstep ▸ .loaded h
  | tested h => exact parent_spins rfl (ofNat_succ_ne _).symm hstep ▸ .tested h
  | answered h =>
      simp only [parentStep, if_true] at hstep
      obtain rfl := Option.some.inj hstep
      exact .timed h
  | timed h =>
      obtain rfl := Option.some.inj hstep
      have hnext := loopTest_phase (Nat.succ_le_of_lt h)
      unfold rounds round at hnext
      simpa [List.append_assoc] using hnext
  | finished =>
      obtain rfl := Option.some.inj hstep
      exact .stopped
  | stopped => cases hstep
  | stopNoticed => cases hstep
  | stopLoaded => cases hstep
  | gone =>
      obtain rfl := Option.some.inj hstep
      exact .reaped
  | reaped => cases hstep

theorem phase_childStep (hmax : n < 2 ^ 64 - 1) (h : Phase n s) (hstep : childStep s = some s') :
    Phase n s' := by
  cases h with
  | ready h => exact child_spins rfl rfl hstep ▸ .ready h
  | asked h =>
      simp only [childStep, if_neg (ofNat_succ_ne _)] at hstep
      obtain rfl := Option.some.inj hstep
      exact .noticed h
  | noticed h =>
      obtain rfl := Option.some.inj hstep
      exact .loaded h
  | loaded h =>
      simp only [childStep, if_neg (ofNat_ne_max hmax (Nat.succ_le_of_lt h))] at hstep
      obtain rfl := Option.some.inj hstep
      exact .tested h
  | tested h =>
      obtain rfl := Option.some.inj hstep
      simp only [List.append_assoc]
      exact .answered h
  | answered h => exact child_spins rfl rfl hstep ▸ .answered h
  | timed h => exact child_spins rfl rfl hstep ▸ .timed h
  | finished => exact child_spins rfl rfl hstep ▸ .finished
  | stopped =>
      simp only [childStep, if_neg (ofNat_ne_max hmax le_rfl).symm] at hstep
      obtain rfl := Option.some.inj hstep
      exact .stopNoticed
  | stopNoticed =>
      obtain rfl := Option.some.inj hstep
      exact .stopLoaded
  | stopLoaded =>
      simp only [childStep, if_true] at hstep
      obtain rfl := Option.some.inj hstep
      exact .gone
  | gone => cases hstep
  | reaped => cases hstep

theorem phase_of_reachable (hmax : n < 2 ^ 64 - 1) (h : Reachable n s) : Phase n s := by
  refine invariant (loopTest_phase (Nat.zero_le n)) ?_ h
  intro process s s' hphase hstep
  cases process with
  | parent => exact phase_parentStep hphase hstep
  | child => exact phase_childStep hmax hphase hstep

theorem log_prefix_schedule (h : Phase n s) : s.log <+: schedule n := by
  have hround : ∀ {k : Nat} {log : List Event}, k < n → log <+: rounds k ++ round (k + 1) →
      log <+: schedule n :=
    fun hk hlog => (hlog.trans (rounds_isPrefix (k := _ + 1) hk)).trans (List.prefix_append _ _)
  cases h with
  | ready h => exact hround h (List.prefix_append _ _)
  | asked h | noticed h | loaded h | tested h =>
      exact hround h (List.prefix_append_right_inj _ |>.mpr (by simp [round]))
  | answered h | timed h =>
      exact hround h (List.prefix_append_right_inj _ |>.mpr (by simp [round]))
  | finished => exact List.prefix_append _ _
  | stopped | stopNoticed | stopLoaded | gone | reaped => exact List.prefix_rfl

theorem req_mem_rounds {k : Nat} {v : UInt64} (h : .req v ∈ rounds k) :
    ∃ i, 1 ≤ i ∧ i ≤ k ∧ v = .ofNat i := by
  induction k with
  | zero => cases h
  | succ k ih =>
      rw [rounds, List.mem_append] at h
      rcases h with h | h
      · obtain ⟨i, hpos, hle, rfl⟩ := ih h
        exact ⟨i, hpos, Nat.le_succ_of_le hle, rfl⟩
      · simp only [round, List.mem_cons, Event.req.injEq, reduceCtorEq, List.not_mem_nil, or_false] at h
        exact ⟨k + 1, by omega, le_rfl, h⟩

theorem round_eq_sample {k i : Nat} {before later : List Event}
    (h : round k = before ++ .sample i :: later) :
    i = k ∧ before = [.req (.ofNat i), .rsp (.ofNat i)] := by
  rcases before with _ | ⟨a, _ | ⟨b, _ | ⟨c, before⟩⟩⟩
  · simp [round] at h
  · simp [round] at h
  · obtain ⟨rfl, rfl, rfl, -⟩ : .req (.ofNat k) = a ∧ .rsp (.ofNat k) = b ∧ k = i ∧ [] = later := by
      simpa [round] using h
    exact ⟨rfl, rfl⟩
  · simp [round] at h

theorem rounds_eq_sample {k i : Nat} {before later : List Event}
    (h : rounds k = before ++ .sample i :: later) :
    ∃ j, i = j + 1 ∧ j < k ∧ before = rounds j ++ [.req (.ofNat i), .rsp (.ofNat i)] := by
  induction k generalizing later with
  | zero => simp [rounds] at h
  | succ k ih =>
      unfold rounds at h
      rcases List.append_eq_append_iff.mp h with ⟨own, rfl, hround⟩ | ⟨rest, hrounds, hrest⟩
      · obtain ⟨rfl, rfl⟩ := round_eq_sample hround
        exact ⟨k, rfl, Nat.lt_succ_self k, rfl⟩
      · cases rest with
        | nil => simp [round] at hrest
        | cons e rest =>
            obtain ⟨rfl, -⟩ := List.cons.inj hrest
            obtain ⟨j, hi, hj, hbefore⟩ := ih hrounds
            exact ⟨j, hi, Nat.lt_succ_of_lt hj, hbefore⟩

theorem schedule_eq_sample {i : Nat} {before later : List Event}
    (h : schedule n = before ++ .sample i :: later) :
    ∃ j, i = j + 1 ∧ j < n ∧ before = rounds j ++ [.req (.ofNat i), .rsp (.ofNat i)] := by
  rcases List.append_eq_append_iff.mp h with ⟨more, -, hmore⟩ | ⟨more, hrounds, hmore⟩
  · rcases more with _ | ⟨e, more⟩ <;> simp at hmore
  · cases more with
    | nil => simp at hmore
    | cons e more =>
        obtain ⟨rfl, -⟩ := List.cons.inj hmore
        exact rounds_eq_sample hrounds

theorem schedule_eq_of_log {e : Event} {before later : List Event} (hlog : s.log <+: schedule n)
    (h : s.log = before ++ e :: later) : ∃ rest, schedule n = before ++ e :: rest := by
  obtain ⟨more, hmore⟩ := hlog
  exact ⟨later ++ more, by rw [← hmore, h, List.append_assoc, List.cons_append]⟩

/-! ## Lockstep -/

/-- What every reachable state keeps to: the answers so far are an opening of `1, …, n`, a
sample comes after its answer and before the next request, and while the two are not
both done one of them can do more than spin. -/
structure Lockstep (n : Nat) (s : State) : Prop where
  answers : (answers s.log).map UInt64.toNat <+: List.range' 1 n
  bounded : s.rsp ≤ s.req
  sampled : ∀ before i later, s.log = before ++ .sample i :: later →
    .rsp (.ofNat i) ∈ before ∧ .req (.ofNat (i + 1)) ∉ before
  noStop : .rsp UINT64_MAX ∉ s.log
  exited : s.child = .exited → samples s.log = List.range' 1 n
  live : ¬ Final s → ¬ Stuck (step n) s

theorem map_toNat_ofNat (hmax : n < 2 ^ 64 - 1) :
    ((List.range' 1 n).map UInt64.ofNat).map UInt64.toNat = List.range' 1 n := by
  rw [List.map_map]
  conv_rhs => rw [← List.map_id (List.range' 1 n)]
  refine List.map_congr_left fun i hi => ?_
  have hlt : i < 2 ^ 64 := by
    have := List.mem_range'_1.mp hi
    omega
  rw [Function.comp_apply, UInt64.toNat_ofNat', Nat.mod_eq_of_lt hlt]
  rfl

theorem answers_schedule (hmax : n < 2 ^ 64 - 1) :
    (answers (schedule n)).map UInt64.toNat = List.range' 1 n := by
  rw [schedule, answers, List.filterMap_append, ← answers, answers_rounds, List.map_append,
    map_toNat_ofNat hmax]
  simp [answer]

theorem samples_schedule (n : Nat) : samples (schedule n) = List.range' 1 n := by
  rw [schedule, samples, List.filterMap_append, ← samples, samples_rounds]
  simp [sampled]

theorem phase_bounded (hmax : n < 2 ^ 64 - 1) (h : Phase n s) : s.rsp ≤ s.req := by
  have hnext : ∀ {k : Nat}, k < n → UInt64.ofNat k ≤ UInt64.ofNat (k + 1) := by
    intro k hk
    rw [UInt64.le_iff_toNat_le, UInt64.toNat_ofNat', UInt64.toNat_ofNat']
    omega
  have hstop : ∀ v : UInt64, v ≤ UINT64_MAX := by
    intro v
    rw [UInt64.le_iff_toNat_le, show UINT64_MAX.toNat = 2 ^ 64 - 1 from rfl]
    have := v.toNat_lt
    omega
  cases h with
  | asked h | noticed h | loaded h | tested h => exact hnext h
  | ready | answered | timed | finished => exact UInt64.le_refl _
  | stopped | stopNoticed | stopLoaded | gone | reaped => exact hstop _

theorem not_stuck_of_step {s₁ : State} (process : Process) (hstep : step n process s = some s₁)
    (hne : s₁ ≠ s) : ¬ Stuck (step n) s :=
  fun hstuck => hne (hstuck process s₁ hstep)

/-- In each phase but the last the process whose turn it is moves on. -/
theorem phase_live (hmax : n < 2 ^ 64 - 1) (h : Phase n s) (hfinal : ¬ Final s) : ¬ Stuck (step n) s := by
  cases h with
  | ready h => exact not_stuck_of_step .parent rfl (by simp)
  | asked h => exact not_stuck_of_step .child rfl (by simp)
  | noticed h => exact not_stuck_of_step .child rfl (by simp)
  | loaded h => exact not_stuck_of_step .child rfl (by simp; split <;> simp)
  | tested h => exact not_stuck_of_step .child rfl (by simp)
  | answered h => exact not_stuck_of_step .parent rfl (by simp)
  | timed h => exact not_stuck_of_step .parent rfl (by simp)
  | finished => exact not_stuck_of_step .parent rfl (by simp)
  | stopped => exact not_stuck_of_step .child rfl (by simp [(ofNat_ne_max hmax le_rfl).symm])
  | stopNoticed => exact not_stuck_of_step .child rfl (by simp)
  | stopLoaded => exact not_stuck_of_step .child rfl (by simp)
  | gone => exact not_stuck_of_step .parent rfl (by simp)
  | reaped => exact absurd ⟨rfl, rfl⟩ hfinal

theorem sample_order (hmax : n < 2 ^ 64 - 1) {i : Nat} {before later : List Event}
    (h : schedule n = before ++ .sample i :: later) :
    .rsp (.ofNat i) ∈ before ∧ .req (.ofNat (i + 1)) ∉ before := by
  obtain ⟨j, rfl, hj, rfl⟩ := schedule_eq_sample h
  refine ⟨by simp, fun hmem => ?_⟩
  have hmem' : .req (.ofNat (j + 2)) ∈ rounds (j + 1) := by
    unfold rounds round
    simp only [List.mem_append, List.mem_cons] at hmem ⊢
    tauto
  obtain ⟨m, -, hm, heq⟩ := req_mem_rounds hmem'
  have hval := congrArg UInt64.toNat heq
  simp only [UInt64.toNat_ofNat'] at hval
  omega

theorem lockstep_of_phase (hmax : n < 2 ^ 64 - 1) (hphase : Phase n s) : Lockstep n s := by
  have hlog := log_prefix_schedule hphase
  have hanswers : (answers s.log).map UInt64.toNat <+: List.range' 1 n := by
    rw [← answers_schedule hmax]
    exact (hlog.filterMap answer).map UInt64.toNat
  refine ⟨hanswers, phase_bounded hmax hphase, ?_, ?_, ?_, phase_live hmax hphase⟩
  · intro before i later heq
    obtain ⟨rest, hrest⟩ := schedule_eq_of_log hlog heq
    exact sample_order hmax hrest
  · intro hmem
    have hstop : UINT64_MAX.toNat ∈ (answers s.log).map UInt64.toNat :=
      List.mem_map_of_mem (List.mem_filterMap.mpr ⟨_, hmem, rfl⟩)
    have hrange := List.mem_range'_1.mp (hanswers.subset hstop)
    rw [show UINT64_MAX.toNat = 2 ^ 64 - 1 from rfl] at hrange
    omega
  · intro hexited
    cases hphase with
    | gone | reaped => exact samples_schedule n
    | _ => cases hexited

theorem lockstep (hmax : n < 2 ^ 64 - 1) (h : Reachable n s) : Lockstep n s :=
  lockstep_of_phase hmax (phase_of_reachable hmax h)

/-- The loop index stays in `1, …, n`, so that an `int` holds it for every `n` below the
largest one. -/
theorem index_le (hmax : n < 2 ^ 64 - 1) (h : Reachable n s) {i : Nat}
    (hi : s.parent = .storeReq i ∨ s.parent = .loadRsp i ∨ s.parent = .record i) : 1 ≤ i ∧ i ≤ n := by
  cases phase_of_reachable hmax h <;> simp only [reduceCtorEq, Parent.storeReq.injEq,
    Parent.loadRsp.injEq, Parent.record.injEq, false_or, or_false, or_self] at hi <;> omega

end Runs

/-- In the second of two rounds, with a request the child has not seen. -/
def secondRequest : State :=
  ⟨2, 1, .loadRsp 2, .spin, 1, [.req 1, .rsp 1, .sample 1, .req 2]⟩

theorem lockstep_secondRequest : Lockstep 2 secondRequest := by
  have hrun : runSchedule (step 2)
      [.child, .parent, .parent, .child, .child, .child, .child, .parent, .parent, .child, .parent]
      (start 2) = some secondRequest := by
    decide
  exact lockstep (by decide) (reachable_of_runSchedule hrun)

end ShmRing
