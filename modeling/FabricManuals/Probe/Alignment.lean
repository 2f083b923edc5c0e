import FabricManuals.Probe.RoundTrips
import Mathlib.Algebra.Ring.Nat

/-! # Round trips over a byte stream

On a stream a `read` may return a part of what was written.  The loops of `probe_unix`
take whatever one read returns for a whole message, so a short read leaves the rest of
the message for a later iteration. -/
set_option autoImplicit false

namespace UnixSocket

open SampleBuffer Transition

/-- The call returns no error and no end of the stream; a `write` writes all it is given. -/
def Action.succeeds : Action → Bool
  | .write r | .childWrite r => r = .count 32
  | .read r | .childRead r => r ≠ .failed ∧ r ≠ .count 0
  | .sigpipe | .childSigpipe => false
  | _ => true

/-- How many of the 32 bytes a `read` leaves out. -/
def Action.lacks : Action → Nat
  | .read (.count k) | .childRead (.count k) => 32 - k
  | _ => 0

/-- Whenever the parent records a sample `i`, the child has taken the first `i + 1`
requests from the stream and the parent the first `i + 1` replies. -/
def Aligned (label : String) (n : Nat) (actions : List Action) : Prop :=
  ∀ before t1 s i t0, before ++ [.now t1] <+: actions → run label n before = some s →
    s.parent = .record i t0 → s.consumed = 32 * (i + 1) ∧ s.received = 32 * (i + 1)

structure Moved (k : Nat) (s : State) : Prop where
  requested : s.requested = k
  consumed : s.consumed = k
  replied : s.replied = k
  received : s.received = k

/-- Between the two readings of the clock one whole request and its reply move, and nothing
else. -/
def Spans (label : String) (n : Nat) (actions : List Action) : Prop :=
  ∀ before t s i, before ++ [.now t] <+: actions → run label n before = some s →
    (s.parent = .start i → Moved (32 * i) s) ∧
      ∀ t0, s.parent = .record i t0 → Moved (32 * (i + 1)) s

theorem not_succeeds_of_broke {a : Action}
    (h : a = .write .failed ∨ a = .read .failed ∨ a = .read (.count 0)) : ¬ a.succeeds = true := by
  rcases h with rfl | rfl | rfl <;> decide

theorem not_succeeds_of_childLeft {a : Action}
    (h : a = .childRead .failed ∨ a = .childRead (.count 0) ∨ a = .childWrite .failed) :
    ¬ a.succeeds = true := by
  rcases h with rfl | rfl | rfl <;> decide

/-! ## Runs without a short read -/

def Parent.Sent (requested received : Nat) : Parent → Prop
  | .socketpair | .fork | .closeOther => requested = 0
  | .start i | .write i _ => requested = 32 * i ∧ received = 32 * i
  | .read i _ => requested = 32 * (i + 1) ∧ received = 32 * i
  | .record i _ => requested = 32 * (i + 1) ∧ received = 32 * (i + 1)
  | .report | .close | .waitpid | .returned | .killed => True

def Child.Answered (consumed replied : Nat) : Child → Prop
  | .absent | .closeOther | .read _ => replied = consumed
  | .write _ => consumed = replied + 32
  | .exit | .exited => True

structure Flow (s : State) : Prop where
  replies : s.received ≤ s.replied
  answers : s.replied ≤ s.consumed
  requests : s.consumed ≤ s.requested
  parent : s.parent.Sent s.requested s.received
  child : s.child.Answered s.consumed s.replied

theorem sent_parentTest {n i : Nat} : (parentTest n i).Sent (32 * i) (32 * i) := by
  unfold parentTest
  split
  · exact ⟨rfl, rfl⟩
  · trivial

theorem answered_childTest {n i k : Nat} : (childTest n i).Answered k k := by
  unfold childTest
  split
  · rfl
  · trivial

theorem Flow.moved {s : State} {k : Nat} (h : Flow s) (hrequested : s.requested = k)
    (hreceived : s.received = k) : Moved k s := by
  have hreplies := h.replies
  have hanswers := h.answers
  have hrequests := h.requests
  exact ⟨hrequested, by omega, by omega, hreceived⟩

theorem Flow.untouched {s : State} (h : Flow s) (hrequested : s.requested = 0) : Moved 0 s := by
  have hreplies := h.replies
  have hanswers := h.answers
  have hrequests := h.requests
  exact h.moved hrequested (by omega)

theorem Flow.move {n : Nat} {a : Action} {s s' : State} (h : Flow s) (hmove : Move n s a s')
    (hok : a.succeeds = true) (hwhole : a.lacks = 0) : Flow s' := by
  have hparent := h.parent
  have hchild := h.child
  cases hmove with
  | socketpair hs hnext =>
      rw [hs] at hparent
      refine ⟨h.replies, h.answers, h.requests, ?_, hchild⟩
      rcases hnext with rfl | rfl
      · exact hparent
      · trivial
  | fork hs hchild' =>
      rw [hs] at hparent
      have hmoved := h.untouched hparent
      have hsame : s.replied = s.consumed := by rw [hmoved.consumed, hmoved.replied]
      refine ⟨h.replies, h.answers, h.requests, hparent, ?_⟩
      rcases hchild' with rfl | rfl
      · exact hsame
      · exact hsame
  | enter hs =>
      rw [hs] at hparent
      have hmoved := h.untouched hparent
      refine ⟨h.replies, h.answers, h.requests, ?_, hchild⟩
      simp only [hmoved.requested, hmoved.received]
      exact sent_parentTest
  | start hs =>
      rw [hs] at hparent
      exact ⟨h.replies, h.answers, h.requests, hparent, hchild⟩
  | @write i k t0 hs =>
      rw [hs] at hparent
      obtain ⟨hrequested, hreceived⟩ := hparent
      obtain rfl : k = 32 := by simpa [Action.succeeds] using hok
      refine ⟨h.replies, h.answers, Nat.le_add_right_of_le h.requests, ⟨?_, hreceived⟩, hchild⟩
      show s.requested + 32 = 32 * (i + 1)
      omega
  | @read i k t0 hs _ hk hqueued =>
      rw [hs] at hparent
      obtain ⟨hrequested, hreceived⟩ := hparent
      have hall : 32 - k = 0 := hwhole
      have hreplies : s.received + k ≤ s.replied := by have := h.replies; omega
      refine ⟨hreplies, h.answers, h.requests, ⟨hrequested, ?_⟩, hchild⟩
      show s.received + k = 32 * (i + 1)
      omega
  | @record i t0 t1 hs =>
      rw [hs] at hparent
      obtain ⟨hrequested, hreceived⟩ := hparent
      refine ⟨h.replies, h.answers, h.requests, ?_, hchild⟩
      simp only [hrequested, hreceived]
      exact sent_parentTest
  | leave hnext =>
      refine ⟨h.replies, h.answers, h.requests, ?_, hchild⟩
      rcases hnext with rfl | rfl | rfl <;> trivial
  | childEnter hs =>
      rw [hs] at hchild
      have hsame : s.replied = s.consumed := hchild
      refine ⟨h.replies, h.answers, h.requests, hparent, ?_⟩
      simp only [hsame]
      exact answered_childTest
  | childExit => exact ⟨h.replies, h.answers, h.requests, hparent, trivial⟩
  | @childRead i k hs hk hqueued =>
      rw [hs] at hchild
      have hall : 32 - k = 0 := hwhole
      have hsame : s.replied = s.consumed := hchild
      have hrequests : s.consumed + k ≤ s.requested := by have := h.requests; omega
      refine ⟨h.replies, Nat.le_add_right_of_le h.answers, hrequests, hparent, ?_⟩
      show s.consumed + k = s.replied + 32
      omega
  | @childWrite i k hs =>
      rw [hs] at hchild
      obtain rfl : k = 32 := by simpa [Action.succeeds] using hok
      have hbehind : s.consumed = s.replied + 32 := hchild
      refine ⟨Nat.le_add_right_of_le h.replies, hbehind.symm.le, h.requests, hparent, ?_⟩
      simp only [hbehind]
      exact answered_childTest
  | broke _ ha => exact absurd hok (not_succeeds_of_broke ha)
  | killed | childKilled => exact absurd hok (by decide)
  | childLeft ha => exact absurd hok (not_succeeds_of_childLeft ha)

theorem flow_run {label : String} {n : Nat} {actions : List Action} {s : State}
    (h : run label n actions = some s) (hok : ∀ a ∈ actions, a.succeeds = true)
    (hwhole : ∀ a ∈ actions, a.lacks = 0) : Flow s := by
  revert hok hwhole
  refine invariant_runSchedule
    (I := fun actions s => (∀ a ∈ actions, a.succeeds = true) → (∀ a ∈ actions, a.lacks = 0) → Flow s)
    ?_ ?_ h
  · intro _ _
    exact ⟨Nat.le_refl 0, Nat.le_refl 0, Nat.le_refl 0, rfl, rfl⟩
  · intro before a s s' _ ih hstep hok hwhole
    rw [List.forall_mem_append, List.forall_mem_singleton] at hok hwhole
    exact (ih hok.1 hwhole.1).move (move_of_step hstep) hok.2 hwhole.2

theorem spans_of_whole {label : String} {n : Nat} {actions : List Action}
    (hok : ∀ a ∈ actions, a.succeeds = true) (hwhole : ∀ a ∈ actions, a.lacks = 0) :
    Spans label n actions := by
  intro before t s i hpre hrun
  have hsub : before ⊆ actions := fun a ha => hpre.subset (List.mem_append_left _ ha)
  have hflow := flow_run hrun (fun a ha => hok a (hsub ha)) fun a ha => hwhole a (hsub ha)
  have hparent := hflow.parent
  constructor
  · intro hs
    rw [hs] at hparent
    exact hflow.moved hparent.1 hparent.2
  · intro t0 hs
    rw [hs] at hparent
    exact hflow.moved hparent.1 hparent.2

theorem Spans.aligned {label : String} {n : Nat} {actions : List Action} (h : Spans label n actions) :
    Aligned label n actions := by
  intro before t1 s i t0 hpre hrun hs
  have hmoved := (h before t1 s i hpre hrun).2 t0 hs
  exact ⟨hmoved.consumed, hmoved.received⟩

/-! ## Runs that are aligned -/

def Child.reads (n : Nat) : Child → Nat
  | .absent | .closeOther => 0
  | .read i => i
  | .write i => i + 1
  | .exit | .exited => n

def Child.Within (n : Nat) : Child → Prop
  | .read i | .write i => i < n
  | .absent | .closeOther | .exit | .exited => True

/-- Every read brings 32 bytes, those it lacks included; the parent made `j` reads, and
`i` whole messages are known to have come through each way. -/
structure Tally (n lack i j : Nat) (s : State) : Prop where
  total : s.consumed + s.received + lack = 32 * (s.child.reads n + j)
  consumed : 32 * i ≤ s.consumed
  received : 32 * i ≤ s.received
  child : s.child.Within n

def Accounted (n lack : Nat) (s : State) : Prop :=
  match s.parent with
  | .socketpair | .fork => s.child = .absent ∧ Tally n lack 0 0 s
  | .closeOther => Tally n lack 0 0 s
  | .start i | .write i _ | .read i _ => i < n ∧ Tally n lack i i s
  | .record i _ => i < n ∧ Tally n lack i (i + 1) s
  | .report => Tally n lack n n s
  | .close | .waitpid | .returned | .killed => True

theorem Child.Within.reads_le {n : Nat} {child : Child} (h : child.Within n) : child.reads n ≤ n := by
  cases child with
  | absent | closeOther => exact Nat.zero_le n
  | read i => exact Nat.le_of_lt h
  | write i => exact h
  | exit | exited => exact Nat.le_refl n

theorem within_childTest (n i : Nat) : (childTest n i).Within n := by
  unfold childTest
  split
  · next hlt => exact hlt
  · trivial

theorem reads_childTest {n i : Nat} (h : i ≤ n) : (childTest n i).reads n = i := by
  unfold childTest
  split
  · rfl
  · next hge => exact Nat.le_antisymm (Nat.not_lt.mp hge) h

theorem accounted_parentTest {n lack i : Nat} {s : State} (hi : i ≤ n)
    (h : s.parent = parentTest n i) (htally : Tally n lack i i s) : Accounted n lack s := by
  rw [Accounted, h, parentTest]
  by_cases hlt : i < n
  · rw [if_pos hlt]
    exact ⟨hlt, htally⟩
  · rw [if_neg hlt]
    obtain rfl : i = n := by omega
    exact htally

theorem Accounted.child {n lack lack' : Nat} {s s' : State} (h : Accounted n lack s)
    (hparent : s'.parent = s.parent) (hrunning : s.child ≠ .absent)
    (htally : ∀ i j, Tally n lack i j s → Tally n lack' i j s') : Accounted n lack' s' := by
  unfold Accounted at h ⊢
  rw [hparent]
  cases hs : s.parent <;> rw [hs] at h <;> simp only at h ⊢
  case socketpair => exact absurd h.1 hrunning
  case fork => exact absurd h.1 hrunning
  case closeOther => exact htally _ _ h
  case report => exact htally _ _ h
  all_goals exact ⟨h.1, htally _ _ h.2⟩

theorem accounted_move {n lack : Nat} {a : Action} {s s' : State} (h : Accounted n lack s)
    (hmove : Move n s a s') (hok : a.succeeds = true)
    (haligned : ∀ i t0 t1, s.parent = .record i t0 → a = .now t1 →
      s.consumed = 32 * (i + 1) ∧ s.received = 32 * (i + 1)) : Accounted n (lack + a.lacks) s' := by
  cases hmove with
  | socketpair hs hnext =>
      rw [Accounted, hs] at h
      rcases hnext with rfl | rfl
      · exact ⟨h.1, h.2.total, h.2.consumed, h.2.received, h.2.child⟩
      · trivial
  | fork hs hchild =>
      rw [Accounted, hs] at h
      obtain ⟨habsent, htally⟩ := h
      have htotal : s.consumed + s.received + lack = 0 := by
        rw [htally.total, habsent]
        rfl
      refine ⟨?_, htally.consumed, htally.received, ?_⟩
      · rcases hchild with rfl | rfl <;> exact htotal
      · rcases hchild with rfl | rfl <;> trivial
  | enter hs =>
      rw [Accounted, hs] at h
      exact accounted_parentTest (Nat.zero_le n) rfl ⟨h.total, h.consumed, h.received, h.child⟩
  | start hs =>
      rw [Accounted, hs] at h
      exact ⟨h.1, h.2.total, h.2.consumed, h.2.received, h.2.child⟩
  | write hs =>
      rw [Accounted, hs] at h
      exact ⟨h.1, h.2.total, h.2.consumed, h.2.received, h.2.child⟩
  | @read i k t0 hs _ hk hqueued =>
      rw [Accounted, hs] at h
      obtain ⟨hi, htally⟩ := h
      have htotal := htally.total
      refine ⟨hi, ?_, htally.consumed, Nat.le_add_right_of_le htally.received, htally.child⟩
      show s.consumed + (s.received + k) + (lack + (32 - k)) = 32 * (s.child.reads n + (i + 1))
      omega
  | @record i t0 t1 hs =>
      obtain ⟨hconsumed, hreceived⟩ := haligned i t0 t1 hs rfl
      rw [Accounted, hs] at h
      obtain ⟨hi, htally⟩ := h
      exact accounted_parentTest hi rfl ⟨htally.total, hconsumed.ge, hreceived.ge, htally.child⟩
  | leave hnext =>
      rcases hnext with rfl | rfl | rfl <;> trivial
  | childEnter hs =>
      refine h.child rfl (by rw [hs]; nofun) fun j l htally => ?_
      have htotal := htally.total
      rw [hs] at htotal
      refine ⟨?_, htally.consumed, htally.received, within_childTest n 0⟩
      rw [reads_childTest (Nat.zero_le n)]
      exact htotal
  | childExit hs =>
      refine h.child rfl (by rw [hs]; nofun) fun j l htally => ?_
      have htotal := htally.total
      rw [hs] at htotal
      exact ⟨htotal, htally.consumed, htally.received, trivial⟩
  | @childRead i k hs hk hqueued =>
      refine h.child rfl (by rw [hs]; nofun) fun j l htally => ?_
      have htotal := htally.total
      have hwithin := htally.child
      rw [hs] at htotal hwithin
      refine ⟨?_, Nat.le_add_right_of_le htally.consumed, htally.received, hwithin⟩
      show s.consumed + k + s.received + (lack + (32 - k)) = 32 * (i + 1 + l)
      have hreads : s.consumed + s.received + lack = 32 * (i + l) := htotal
      omega
  | @childWrite i k hs =>
      refine h.child rfl (by rw [hs]; nofun) fun j l htally => ?_
      have htotal := htally.total
      have hwithin := htally.child
      rw [hs] at htotal hwithin
      refine ⟨?_, htally.consumed, htally.received, within_childTest n (i + 1)⟩
      rw [reads_childTest hwithin]
      exact htotal
  | broke _ ha => exact absurd hok (not_succeeds_of_broke ha)
  | killed | childKilled => exact absurd hok (by decide)
  | childLeft ha => exact absurd hok (not_succeeds_of_childLeft ha)

theorem accounted_run {label : String} {n : Nat} {actions : List Action} {s : State}
    (h : run label n actions = some s) (hok : ∀ a ∈ actions, a.succeeds = true)
    (haligned : Aligned label n actions) : Accounted n (actions.map Action.lacks).sum s := by
  revert hok haligned
  refine invariant_runSchedule
    (I := fun actions s => (∀ a ∈ actions, a.succeeds = true) → Aligned label n actions →
      Accounted n (actions.map Action.lacks).sum s) ?_ ?_ h
  · intro _ _
    exact ⟨rfl, rfl, Nat.le_refl 0, Nat.le_refl 0, trivial⟩
  · intro before a s s' hrun ih hstep hok haligned
    rw [List.forall_mem_append, List.forall_mem_singleton] at hok
    have hbefore : Aligned label n before := fun first t1 s i t0 hpre =>
      haligned first t1 s i t0 (hpre.trans (List.prefix_append _ _))
    rw [List.map_append, List.sum_append, List.map_singleton, List.sum_singleton]
    refine accounted_move (ih hok.1 hbefore) (move_of_step hstep) hok.2 fun i t0 t1 hs ha => ?_
    subst ha
    exact haligned before t1 s i t0 List.prefix_rfl hrun hs

/-- By the time of the report no read can have been short: the child had `n` reads for
`n` messages, and so had the parent. -/
theorem whole_of_aligned {label : String} {n : Nat} {actions : List Action} {s : State}
    (h : run label n actions = some s) (hok : ∀ a ∈ actions, a.succeeds = true)
    (hreport : s.parent = .report) (haligned : Aligned label n actions) :
    ∀ a ∈ actions, a.lacks = 0 := by
  have haccounted := accounted_run h hok haligned
  rw [Accounted, hreport] at haccounted
  have htotal := haccounted.total
  have hconsumed := haccounted.consumed
  have hreceived := haccounted.received
  have hreads := haccounted.child.reads_le
  have hnone : (actions.map Action.lacks).sum = 0 := by omega
  intro a ha
  exact List.sum_eq_zero_iff_forall_eq_nat.mp hnone _ (List.mem_map_of_mem ha)

/-- In a run whose calls succeed: without a short read every sample spans its own request
and reply, and a run that comes to the report is aligned only if no read was short. -/
theorem stream_aligned_iff {label : String} {n : Nat} {actions : List Action} {s : State}
    (h : run label n actions = some s) (hok : ∀ a ∈ actions, a.succeeds = true) :
    ((∀ a ∈ actions, a.lacks = 0) → Aligned label n actions ∧ Spans label n actions) ∧
      (s.parent = .report → (Aligned label n actions ↔ ∀ a ∈ actions, a.lacks = 0)) := by
  have hspans : (∀ a ∈ actions, a.lacks = 0) → Spans label n actions := spans_of_whole hok
  refine ⟨fun hwhole => ⟨(hspans hwhole).aligned, hspans hwhole⟩, fun hreport => ⟨?_, ?_⟩⟩
  · exact whole_of_aligned h hok hreport
  · exact fun hwhole => (hspans hwhole).aligned

theorem stream_aligned_twoRoundTrips :
    Aligned "AF_UNIX SOCK_STREAM" 2 twoRoundTrips ∧ Spans "AF_UNIX SOCK_STREAM" 2 twoRoundTrips := by
  have hrun : ∃ s, run "AF_UNIX SOCK_STREAM" 2 twoRoundTrips = some s := ⟨_, rfl⟩
  obtain ⟨s, hs⟩ := hrun
  exact (stream_aligned_iff hs (by decide)).1 (by decide)

/-- The child's first read brings one byte, and it answers that. -/
def shortRequest : List Action :=
  [.socketpair true, .fork true, .close, .childClose,
    .now 10, .write (.count 32), .childRead (.count 1), .childWrite (.count 32), .read (.count 32), .now 17]

theorem short_read_misaligns :
    ¬ ∀ (label : String) (n : Nat) (actions : List Action) (s : State),
      run label n actions = some s → (∀ a ∈ actions, a.succeeds = true) → Aligned label n actions := by
  intro h
  have haligned := h "AF_UNIX SOCK_STREAM" 20000 shortRequest _ rfl (by decide)
  have hmoved := haligned shortRequest.dropLast 17 _ 0 10 List.prefix_rfl rfl rfl
  exact absurd hmoved.1 (by decide)

end UnixSocket
