import FabricManuals.Probe.Alignment

/-! # `probe_unix` comes to its end

A blocked `read` is one of an empty queue with the writer still there, and a blocked
`write` one to a queue without the room.  The two processes only wait for each other
where both queues are full, and each call brings the end nearer. -/
set_option autoImplicit false

namespace UnixSocket

open SampleBuffer Transition

/-- An error that nothing on the other side explains, or a `write` that stops short. -/
def Action.Spontaneous : Action → Prop
  | .socketpair ok | .fork ok => ok = false
  | .write r | .childWrite r => r ≠ .count 32
  | .read r | .childRead r => r = .failed
  | _ => False

/-- A queue of `cap` bytes takes what the call writes. -/
def Action.HasRoom (cap : Nat) (s : State) : Action → Prop
  | .write (.count k) => s.requested - s.consumed + k ≤ cap
  | .childWrite (.count k) => s.replied - s.received + k ≤ cap
  | _ => True

def Over (s : State) : Prop := (s.parent = .returned ∨ s.parent = .killed) ∧ s.childClosed

/-- Both are in a `write` that their queue has no room for. -/
structure Jammed (cap : Nat) (s : State) : Prop where
  parent : ∃ i t0, s.parent = .write i t0
  child : ∃ i, s.child = .write i
  requests : cap < s.requested - s.consumed + 32
  replies : cap < s.replied - s.received + 32

/-! ## Nobody waits for ever -/

def Parent.Wrote (requested : Nat) : Parent → Prop
  | .socketpair | .fork | .closeOther => requested = 0
  | .start i | .write i _ => requested ≤ 32 * i
  | .read i _ | .record i _ => requested ≤ 32 * (i + 1)
  | .report | .close | .waitpid | .returned | .killed => True

/-- Nothing is read that was not written; there is a child only after the `fork`; the
parent ends after it; and a reply is there, or on its way, whenever the parent reads. -/
structure Live (n : Nat) (s : State) : Prop where
  requests : s.consumed ≤ s.requested
  replies : s.received ≤ s.replied
  wrote : s.parent.Wrote s.requested
  within : s.child.Within n
  forked : s.parent = .socketpair ∨ s.parent = .fork → s.child = .absent
  reaped : s.parent = .returned ∨ s.parent = .killed → s.childClosed
  answered : ∀ i t0, s.parent = .read i t0 → s.received < s.replied ∨ s.consumed < s.requested ∨
    (∃ j, s.child = .write j) ∨ s.child = .exit ∨ s.childClosed

theorem parentTest_cases (n i : Nat) : parentTest n i = .start i ∨ parentTest n i = .report := by
  unfold parentTest
  split
  · exact Or.inl rfl
  · exact Or.inr rfl

section Steps
variable {label : String} {n : Nat} {a : Action} {s s' : State}

theorem live_test {i : Nat} (hrequests : s'.consumed ≤ s'.requested) (hreplies : s'.received ≤ s'.replied)
    (hwithin : s'.child.Within n) (hwrote : s'.requested ≤ 32 * i) (hparent : s'.parent = parentTest n i) :
    Live n s' := by
  rcases parentTest_cases n i with hi | hi
  · rw [hi] at hparent
    exact ⟨hrequests, hreplies, by rw [hparent]; exact hwrote, hwithin, by simp [hparent],
      by simp [hparent], by simp [hparent]⟩
  · rw [hi] at hparent
    exact ⟨hrequests, hreplies, by rw [hparent]; trivial, hwithin, by simp [hparent], by simp [hparent],
      by simp [hparent]⟩

theorem live_parentStep (h : Live n s) (hwrite : a ≠ .write (.count 0))
    (hstep : parentStep label n s a = some s') : Live n s' := by
  have hwrote := h.wrote
  unfold parentStep at hstep
  split at hstep <;> rename_i hparent <;> try rw [hparent] at hwrote
  case h_1 ok =>
    obtain rfl := Option.some.inj hstep
    have habsent := h.forked (Or.inl hparent)
    cases ok
    · exact ⟨h.requests, h.replies, trivial, h.within, by simp, fun _ => Or.inl habsent, by simp⟩
    · exact ⟨h.requests, h.replies, hwrote, h.within, fun _ => habsent, by simp, by simp⟩
  case h_2 ok =>
    obtain rfl := Option.some.inj hstep
    refine ⟨h.requests, h.replies, hwrote, ?_, by simp, by simp, by simp⟩
    cases ok <;> trivial
  case h_3 =>
    obtain rfl := Option.some.inj hstep
    exact live_test h.requests h.replies h.within (show s.requested ≤ 32 * 0 from Nat.le_of_eq hwrote) rfl
  case h_4 i t0 =>
    obtain rfl := Option.some.inj hstep
    exact ⟨h.requests, h.replies, hwrote, h.within, by simp, by simp, by simp⟩
  case h_5 i t0 =>
    obtain rfl := Option.some.inj hstep
    exact ⟨h.requests, h.replies, trivial, h.within, by simp, by simp, by simp⟩
  case h_6 i t0 =>
    obtain ⟨hclosed, hs'⟩ := Option.ite_none_right_eq_some.mp hstep
    obtain rfl := Option.some.inj hs'
    exact ⟨h.requests, h.replies, trivial, h.within, by simp, fun _ => hclosed, by simp⟩
  case h_7 i t0 k =>
    obtain ⟨⟨hk, -⟩, hs'⟩ := Option.ite_none_right_eq_some.mp hstep
    obtain rfl := Option.some.inj hs'
    have hpos : 0 < k := Nat.pos_of_ne_zero fun hk => hwrite (by rw [hk])
    have hmore : s.consumed < s.requested + k := by have := h.requests; omega
    have hnext : s.requested + k ≤ 32 * (i + 1) := by
      have hbefore : s.requested ≤ 32 * i := hwrote
      omega
    exact ⟨hmore.le, h.replies, hnext, h.within, by simp, by simp, fun _ _ _ => Or.inr (Or.inl hmore)⟩
  case h_8 i t0 =>
    obtain rfl := Option.some.inj hstep
    exact ⟨h.requests, h.replies, trivial, h.within, by simp, by simp, by simp⟩
  case h_9 i t0 k =>
    obtain ⟨⟨-, hqueued, -⟩, hs'⟩ := Option.ite_none_right_eq_some.mp hstep
    split at hs'
    · obtain rfl := Option.some.inj hs'
      exact ⟨h.requests, h.replies, trivial, h.within, by simp, by simp, by simp⟩
    · obtain rfl := Option.some.inj hs'
      have hreplies : s.received + k ≤ s.replied := by have := h.replies; omega
      exact ⟨h.requests, hreplies, hwrote, h.within, by simp, by simp, by simp⟩
  case h_10 i t0 t1 =>
    obtain rfl := Option.some.inj hstep
    exact live_test h.requests h.replies h.within hwrote rfl
  case h_11 =>
    obtain ⟨printed, -, rfl⟩ := Option.map_eq_some_iff.mp hstep
    exact ⟨h.requests, h.replies, trivial, h.within, by simp, by simp, by simp⟩
  case h_12 =>
    obtain rfl := Option.some.inj hstep
    exact ⟨h.requests, h.replies, trivial, h.within, by simp, by simp, by simp⟩
  case h_13 =>
    obtain ⟨hclosed, hs'⟩ := Option.ite_none_right_eq_some.mp hstep
    obtain rfl := Option.some.inj hs'
    exact ⟨h.requests, h.replies, trivial, h.within, by simp, fun _ => hclosed, by simp⟩
  case h_14 => cases hstep

theorem Live.child (h : Live n s) (habsent : s.child ≠ .absent) (hexited : s.child ≠ .exited)
    (hparent : s'.parent = s.parent) (hrequested : s'.requested = s.requested)
    (hrequests : s'.consumed ≤ s.requested) (hreplies : s'.received ≤ s'.replied)
    (hwithin : s'.child.Within n)
    (hanswered : ∀ i t0, s.parent = .read i t0 → s'.received < s'.replied ∨ s'.consumed < s.requested ∨
      (∃ j, s'.child = .write j) ∨ s'.child = .exit ∨ s'.childClosed) : Live n s' := by
  have hopen : ¬ s.childClosed := not_or.mpr ⟨habsent, hexited⟩
  refine ⟨hrequested ▸ hrequests, hreplies, ?_, hwithin, ?_, ?_, ?_⟩
  · rw [hparent, hrequested]
    exact h.wrote
  · rw [hparent]
    exact fun hs => absurd (h.forked hs) habsent
  · rw [hparent]
    exact fun hs => absurd (h.reaped hs) hopen
  · rw [hparent, hrequested]
    exact hanswered

theorem live_childStep (h : Live n s) (hwrite : a ≠ .childWrite (.count 0))
    (hstep : childStep n s a = some s') : Live n s' := by
  have hwithin := h.within
  unfold childStep at hstep
  split at hstep <;> rename_i hchild <;> try rw [hchild] at hwithin
  case h_1 =>
    obtain rfl := Option.some.inj hstep
    refine h.child (by simp [hchild]) (by simp [hchild]) rfl rfl h.requests h.replies (within_childTest n 0) ?_
    intro i t0 hparent
    rcases h.answered i t0 hparent with hreply | hrequest | ⟨j, hj⟩ | hexit | hclosed
    · exact Or.inl hreply
    · exact Or.inr (Or.inl hrequest)
    · cases hchild.symm.trans hj
    · cases hchild.symm.trans hexit
    · simp [State.childClosed, hchild] at hclosed
  case h_2 i =>
    obtain rfl := Option.some.inj hstep
    exact h.child (by simp [hchild]) (by simp [hchild]) rfl rfl h.requests h.replies trivial
      fun _ _ _ => Or.inr (Or.inr (Or.inr (Or.inl rfl)))
  case h_3 i k =>
    obtain ⟨⟨-, hqueued, -⟩, hs'⟩ := Option.ite_none_right_eq_some.mp hstep
    split at hs'
    · obtain rfl := Option.some.inj hs'
      exact h.child (by simp [hchild]) (by simp [hchild]) rfl rfl h.requests h.replies trivial
        fun _ _ _ => Or.inr (Or.inr (Or.inr (Or.inl rfl)))
    · obtain rfl := Option.some.inj hs'
      have hrequests : s.consumed + k ≤ s.requested := by have := h.requests; omega
      exact h.child (by simp [hchild]) (by simp [hchild]) rfl rfl hrequests h.replies hwithin
        fun _ _ _ => Or.inr (Or.inr (Or.inl ⟨i, rfl⟩))
  case h_4 i =>
    obtain rfl := Option.some.inj hstep
    exact h.child (by simp [hchild]) (by simp [hchild]) rfl rfl h.requests h.replies trivial
      fun _ _ _ => Or.inr (Or.inr (Or.inr (Or.inl rfl)))
  case h_5 i =>
    obtain ⟨-, hs'⟩ := Option.ite_none_right_eq_some.mp hstep
    obtain rfl := Option.some.inj hs'
    exact h.child (by simp [hchild]) (by simp [hchild]) rfl rfl h.requests h.replies trivial
      fun _ _ _ => Or.inr (Or.inr (Or.inr (Or.inr (Or.inr rfl))))
  case h_6 i k =>
    obtain ⟨-, hs'⟩ := Option.ite_none_right_eq_some.mp hstep
    obtain rfl := Option.some.inj hs'
    have hpos : 0 < k := Nat.pos_of_ne_zero fun hk => hwrite (by rw [hk])
    have hmore : s.received < s.replied + k := by have := h.replies; omega
    exact h.child (by simp [hchild]) (by simp [hchild]) rfl rfl h.requests hmore.le (within_childTest n (i + 1))
      fun _ _ _ => Or.inl hmore
  case h_7 =>
    obtain rfl := Option.some.inj hstep
    exact h.child (by simp [hchild]) (by simp [hchild]) rfl rfl h.requests h.replies trivial
      fun _ _ _ => Or.inr (Or.inr (Or.inr (Or.inr (Or.inr rfl))))
  case h_8 => cases hstep

theorem live_step (h : Live n s) (hwrite : a ≠ .write (.count 0) ∧ a ≠ .childWrite (.count 0))
    (hstep : step label n a s = some s') : Live n s' := by
  cases a with
  | childClose | childRead | childWrite | childSigpipe | childExit => exact live_childStep h hwrite.2 hstep
  | _ => exact live_parentStep h hwrite.1 hstep

/-- There is a call that goes on without an error of its own, and its queue has the room. -/
def GoesOn (label : String) (n cap : Nat) (s : State) : Prop :=
  ∃ a s', ¬ a.Spontaneous ∧ a.HasRoom cap s ∧ step label n a s = some s'

variable {cap : Nat}

theorem goes_on (hcause : ¬ a.Spontaneous) (hroom : a.HasRoom cap s) (hstep : (step label n a s).isSome) :
    GoesOn label n cap s := by
  obtain ⟨s', hs'⟩ := Option.isSome_iff_exists.mp hstep
  exact ⟨a, s', hcause, hroom, hs'⟩

theorem readable_one {queued : Nat} (closed : Prop) (h : 0 < queued) : Readable queued closed 1 :=
  ⟨by omega, h, by omega⟩

theorem readable_end {queued : Nat} {closed : Prop} (h : queued = 0) (hclosed : closed) :
    Readable queued closed 0 :=
  ⟨by omega, Nat.zero_le _, fun _ => ⟨h, hclosed⟩⟩

theorem child_goes_on (hopen : ¬ s.childClosed)
    (hread : ∀ j, s.child = .read j → s.consumed < s.requested ∨ s.parentClosed)
    (hwrite : ∀ j, s.child = .write j → s.replied - s.received + 32 ≤ cap ∨ s.parentClosed) :
    GoesOn label n cap s := by
  cases hs : s.child with
  | absent => exact absurd (Or.inl hs) hopen
  | exited => exact absurd (Or.inr hs) hopen
  | closeOther =>
      exact goes_on (a := .childClose) (by simp [Action.Spontaneous]) trivial (by simp [step, childStep, hs])
  | exit =>
      exact goes_on (a := .childExit) (by simp [Action.Spontaneous]) trivial (by simp [step, childStep, hs])
  | write j =>
      by_cases hclosed : s.parentClosed
      · apply goes_on (a := .childSigpipe) (by simp [Action.Spontaneous]) trivial
        simp [step, childStep, hs, hclosed]
      · apply goes_on (a := .childWrite (.count 32)) (by simp [Action.Spontaneous])
          ((hwrite j hs).resolve_right hclosed)
        simp [step, childStep, hs, hclosed]
  | read j =>
      by_cases hqueued : s.consumed < s.requested
      · have hone := readable_one s.parentClosed (Nat.sub_pos_of_lt hqueued)
        apply goes_on (a := .childRead (.count 1)) (by simp [Action.Spontaneous]) trivial
        simp [step, childStep, hs, hone]
      · have hclosed := (hread j hs).resolve_left hqueued
        have hend : Readable (s.requested - s.consumed) _ 0 := readable_end (by omega) hclosed
        apply goes_on (a := .childRead (.count 0)) (by simp [Action.Spontaneous]) trivial
        simp [step, childStep, hs, hend]

theorem Live.progress (label : String) (hcap : 32 ≤ cap) (h : Live n s) : Over s ∨
    (s.parent = .report ∧ Probe.report Sample.value label s.s n = none) ∨ Jammed cap s ∨
    GoesOn label n cap s := by
  cases hs : s.parent with
  | socketpair =>
      right; right; right
      apply goes_on (a := .socketpair true) (by simp [Action.Spontaneous]) trivial
      simp [step, parentStep, hs]
  | fork =>
      right; right; right
      apply goes_on (a := .fork true) (by simp [Action.Spontaneous]) trivial
      simp [step, parentStep, hs]
  | closeOther | close =>
      right; right; right
      apply goes_on (a := .close) (by simp [Action.Spontaneous]) trivial
      simp [step, parentStep, hs]
  | start i | record i t0 =>
      right; right; right
      apply goes_on (a := .now 0) (by simp [Action.Spontaneous]) trivial
      simp [step, parentStep, hs]
  | write i t0 =>
      right; right
      have hopen : ¬ s.parentClosed := by simp [State.parentClosed, hs]
      by_cases hclosed : s.childClosed
      · right
        apply goes_on (a := .sigpipe) (by simp [Action.Spontaneous]) trivial
        simp [step, parentStep, hs, hclosed]
      · by_cases hroom : s.requested - s.consumed + 32 ≤ cap
        · right
          apply goes_on (a := .write (.count 32)) (by simp [Action.Spontaneous]) hroom
          simp [step, parentStep, hs, hclosed]
        · -- the child has something to read, so that it is not there that it waits
          by_cases hjam : (∃ j, s.child = .write j) ∧ cap < s.replied - s.received + 32
          · exact Or.inl ⟨⟨i, t0, hs⟩, hjam.1, Nat.lt_of_not_le hroom, hjam.2⟩
          · right
            apply child_goes_on hclosed
            · intro j _
              left
              omega
            · intro j hj
              left
              exact Nat.le_of_not_lt fun hfull => hjam ⟨⟨j, hj⟩, hfull⟩
  | read i t0 =>
      right; right; right
      by_cases hqueued : s.received < s.replied
      · have hone := readable_one s.childClosed (Nat.sub_pos_of_lt hqueued)
        apply goes_on (a := .read (.count 1)) (by simp [Action.Spontaneous]) trivial
        simp [step, parentStep, hs, hone]
      · by_cases hclosed : s.childClosed
        · have hend : Readable (s.replied - s.received) _ 0 := readable_end (by omega) hclosed
          apply goes_on (a := .read (.count 0)) (by simp [Action.Spontaneous]) trivial
          simp [step, parentStep, hs, hend]
        · apply child_goes_on hclosed
          · intro j hj
            left
            rcases h.answered i t0 hs with hreply | hrequest | ⟨l, hl⟩ | hexit | hgone
            · exact absurd hreply hqueued
            · exact hrequest
            · cases hj.symm.trans hl
            · cases hj.symm.trans hexit
            · exact absurd hgone hclosed
          · intro j _
            left
            omega
  | report =>
      right
      cases hreport : Probe.report Sample.value label s.s n with
      | none => exact Or.inl ⟨rfl, rfl⟩
      | some printed =>
          right; right
          apply goes_on (a := .report) (by simp [Action.Spontaneous]) trivial
          simp [step, parentStep, hs, hreport]
  | waitpid =>
      right; right; right
      by_cases hclosed : s.childClosed
      · apply goes_on (a := .waitpid) (by simp [Action.Spontaneous]) trivial
        simp [step, parentStep, hs, hclosed]
      · exact child_goes_on hclosed (fun _ _ => Or.inr (Or.inl hs)) fun _ _ => Or.inr (Or.inl hs)
  | returned => exact Or.inl ⟨Or.inl hs, h.reaped (Or.inl hs)⟩
  | killed => exact Or.inl ⟨Or.inr hs, h.reaped (Or.inr hs)⟩

end Steps

/-! ## Nobody goes on for ever -/

/-- What the parent has before it, for every round the two readings of the clock and the
two calls. -/
def Parent.left (n : Nat) : Parent → Nat
  | .socketpair => 6 * n + 8
  | .fork => 6 * n + 7
  | .closeOther => 4 * n + 4
  | .start i => 4 * (n - i) + 3
  | .write i _ => 4 * (n - i) + 2
  | .read i _ => 4 * (n - i) + 1
  | .record i _ => 4 * (n - i)
  | .report => 3
  | .close => 2
  | .waitpid => 1
  | .returned | .killed => 0

def Child.left (n : Nat) : Child → Nat
  | .closeOther => 2 * n + 2
  | .read i => 2 * (n - i) + 1
  | .write i => 2 * (n - i)
  | .exit => 1
  | .absent | .exited => 0

def State.left (n : Nat) (s : State) : Nat := s.parent.left n + s.child.left n

theorem left_parentTest (n i : Nat) : (parentTest n i).left n ≤ 4 * (n - i) + 3 := by
  unfold parentTest
  split
  · exact Nat.le_refl _
  · exact Nat.le_add_left 3 _

theorem left_childTest (n i : Nat) : (childTest n i).left n ≤ 2 * (n - i) + 1 := by
  unfold childTest
  split
  · exact Nat.le_refl _
  · exact Nat.le_add_left 1 _

section Bound
variable {label : String} {n : Nat} {broke : Prop} {a : Action} {s s' : State}

theorem left_parentStep (hchild : s.parent = .fork → s.child = .absent) (h : Progress n broke s)
    (hstep : parentStep label n s a = some s') : s'.left n < s.left n := by
  unfold parentStep at hstep
  split at hstep <;> rename_i hparent
  case h_1 ok =>
    obtain rfl := Option.some.inj hstep
    cases ok <;> simp [State.left, hparent, Parent.left]
  case h_2 ok =>
    obtain rfl := Option.some.inj hstep
    have hnew : (if ok then Child.closeOther else Child.absent).left n ≤ 2 * n + 2 := by
      cases ok
      · exact Nat.zero_le _
      · exact Nat.le_refl _
    rw [show s.left n = 6 * n + 7 by rw [State.left, hparent, hchild hparent]; rfl]
    show 4 * n + 4 + (if ok then Child.closeOther else Child.absent).left n < 6 * n + 7
    omega
  case h_3 =>
    obtain rfl := Option.some.inj hstep
    have htest := left_parentTest n 0
    rw [State.left, State.left, hparent]
    exact Nat.add_lt_add_right (Nat.lt_succ_of_le htest) _
  case h_4 i t0 =>
    obtain rfl := Option.some.inj hstep
    simp [State.left, hparent, Parent.left]
  case h_5 i t0 =>
    simp only [Progress, hparent] at h
    obtain rfl := Option.some.inj hstep
    have := h.2.1
    simp only [State.left, hparent, Parent.left]
    omega
  case h_6 i t0 =>
    obtain ⟨-, hs'⟩ := Option.ite_none_right_eq_some.mp hstep
    obtain rfl := Option.some.inj hs'
    simp [State.left, hparent, Parent.left]
  case h_7 i t0 =>
    obtain ⟨-, hs'⟩ := Option.ite_none_right_eq_some.mp hstep
    obtain rfl := Option.some.inj hs'
    simp [State.left, hparent, Parent.left]
  case h_8 i t0 =>
    simp only [Progress, hparent] at h
    obtain rfl := Option.some.inj hstep
    have := h.2.1
    simp only [State.left, hparent, Parent.left]
    omega
  case h_9 i t0 =>
    simp only [Progress, hparent] at h
    have := h.2.1
    obtain ⟨-, hs'⟩ := Option.ite_none_right_eq_some.mp hstep
    split at hs' <;> obtain rfl := Option.some.inj hs' <;> simp only [State.left, hparent, Parent.left] <;>
      omega
  case h_10 i t0 t1 =>
    simp only [Progress, hparent] at h
    obtain rfl := Option.some.inj hstep
    have := h.2.1
    have htest := left_parentTest n (i + 1)
    rw [State.left, State.left, hparent]
    show (parentTest n (i + 1)).left n + s.child.left n < 4 * (n - i) + s.child.left n
    omega
  case h_11 =>
    obtain ⟨printed, -, rfl⟩ := Option.map_eq_some_iff.mp hstep
    simp [State.left, hparent, Parent.left]
  case h_12 =>
    obtain rfl := Option.some.inj hstep
    simp [State.left, hparent, Parent.left]
  case h_13 =>
    obtain ⟨-, hs'⟩ := Option.ite_none_right_eq_some.mp hstep
    obtain rfl := Option.some.inj hs'
    simp [State.left, hparent, Parent.left]
  case h_14 => cases hstep

/-- The child's index is within its loop, so that a test that fails comes nearer to the end too. -/
theorem left_childStep (hwithin : s.child.Within n) (hstep : childStep n s a = some s') :
    s'.left n < s.left n := by
  have hless : s'.child.left n < s.child.left n ∧ s'.parent = s.parent := by
    unfold childStep at hstep
    split at hstep <;> rename_i hchild <;> try rw [hchild] at hwithin ⊢
    case h_1 =>
      obtain rfl := Option.some.inj hstep
      exact ⟨Nat.lt_succ_of_le (left_childTest n 0), rfl⟩
    case h_2 i =>
      obtain rfl := Option.some.inj hstep
      have hi : i < n := hwithin
      exact ⟨show 1 < 2 * (n - i) + 1 by omega, rfl⟩
    case h_3 i k =>
      have hi : i < n := hwithin
      obtain ⟨-, hs'⟩ := Option.ite_none_right_eq_some.mp hstep
      split at hs' <;> obtain rfl := Option.some.inj hs'
      · exact ⟨show 1 < 2 * (n - i) + 1 by omega, rfl⟩
      · exact ⟨Nat.lt_succ_self _, rfl⟩
    case h_4 i =>
      obtain rfl := Option.some.inj hstep
      have hi : i < n := hwithin
      exact ⟨show 1 < 2 * (n - i) by omega, rfl⟩
    case h_5 i =>
      obtain ⟨-, hs'⟩ := Option.ite_none_right_eq_some.mp hstep
      obtain rfl := Option.some.inj hs'
      have hi : i < n := hwithin
      exact ⟨show 0 < 2 * (n - i) by omega, rfl⟩
    case h_6 i k =>
      obtain ⟨-, hs'⟩ := Option.ite_none_right_eq_some.mp hstep
      obtain rfl := Option.some.inj hs'
      have hi : i < n := hwithin
      have htest := left_childTest n (i + 1)
      refine ⟨?_, rfl⟩
      show (childTest n (i + 1)).left n < 2 * (n - i)
      omega
    case h_7 =>
      obtain rfl := Option.some.inj hstep
      exact ⟨Nat.zero_lt_one, rfl⟩
    case h_8 => cases hstep
  rw [State.left, State.left, hless.2]
  exact Nat.add_lt_add_left hless.1 _

theorem left_step (hchild : s.parent = .fork → s.child = .absent) (hwithin : s.child.Within n)
    (h : Progress n broke s) (hstep : step label n a s = some s') : s'.left n < s.left n := by
  cases a with
  | childClose | childRead | childWrite | childSigpipe | childExit => exact left_childStep hwithin hstep
  | _ => exact left_parentStep hchild h hstep

end Bound

theorem live_run {label : String} {n : Nat} {actions : List Action} {s : State}
    (h : run label n actions = some s)
    (hwrites : ∀ a ∈ actions, a ≠ .write (.count 0) ∧ a ≠ .childWrite (.count 0)) :
    Live n s ∧ s.left n + actions.length ≤ 6 * n + 8 := by
  revert hwrites
  refine invariant_runSchedule
    (I := fun actions s => (∀ a ∈ actions, a ≠ .write (.count 0) ∧ a ≠ .childWrite (.count 0)) →
      Live n s ∧ s.left n + actions.length ≤ 6 * n + 8) ?_ ?_ h
  · intro _
    exact ⟨⟨Nat.le_refl 0, Nat.le_refl 0, rfl, trivial, fun _ => rfl, fun _ => Or.inl rfl, by simp [start]⟩,
      by simp [State.left, start, Parent.left, Child.left]⟩
  · intro before a s s' hrun ih hstep hwrites
    rw [List.forall_mem_append, List.forall_mem_singleton] at hwrites
    obtain ⟨hlive, hlength⟩ := ih hwrites.1
    have hleft := left_step (fun hs => hlive.forked (Or.inr hs)) hlive.within (progress_run hrun) hstep
    refine ⟨live_step hlive hwrites.2 hstep, ?_⟩
    rw [List.length_append, List.length_singleton]
    omega

theorem Live.not_jammed {n cap : Nat} {broke : Prop} {s : State} (h : Live n s) (hprogress : Progress n broke s)
    (hcap : 32 * n ≤ cap) : ¬ Jammed cap s := by
  intro hjam
  obtain ⟨i, t0, hs⟩ := hjam.parent
  have hwrote := h.wrote
  rw [hs] at hwrote
  rw [Progress, hs] at hprogress
  have hi : i < n := hprogress.2.1
  have hwritten : s.requested ≤ 32 * i := hwrote
  have hfull := hjam.requests
  omega

theorem Flow.not_jammed {cap : Nat} {s : State} (h : Flow s) (hcap : 32 ≤ cap) : ¬ Jammed cap s := by
  intro hjam
  obtain ⟨i, t0, hs⟩ := hjam.parent
  have hparent := h.parent
  rw [hs] at hparent
  have hmoved := h.moved hparent.1 hparent.2
  have hfull := hjam.requests
  rw [hmoved.requested, hmoved.consumed] at hfull
  omega

/-- No run is longer than this, and a run that ends before its time can be continued by a
call that does not fail of itself; but for a report on a buffer that is not full, which
takes an outcome that made the parent leave its loop, and for two full queues, which take
short reads of more than the queues can hold. -/
theorem probe_unix_terminates {label : String} {n cap : Nat} {actions : List Action} {s : State}
    (h : run label n actions = some s)
    (hwrites : ∀ a ∈ actions, a ≠ .write (.count 0) ∧ a ≠ .childWrite (.count 0)) (hcap : 32 ≤ cap) :
    actions.length ≤ 6 * n + 8 ∧
      (Over s ∨ (s.parent = .report ∧ (n = 0 ∨ ∃ a ∈ actions, a.breaks = true)) ∨ Jammed cap s ∨
        GoesOn label n cap s) ∧
      (32 * n ≤ cap ∨ (∀ a ∈ actions, a.succeeds = true ∧ a.lacks = 0) → ¬ Jammed cap s) := by
  obtain ⟨hlive, hlength⟩ := live_run h hwrites
  have hprogress := progress_run h
  refine ⟨by omega, ?_, ?_⟩
  · rcases hlive.progress label hcap with hover | ⟨hreport, hnone⟩ | hnext
    · exact Or.inl hover
    · right; left
      refine ⟨hreport, ?_⟩
      rw [Progress, hreport] at hprogress
      obtain ⟨k, hk, hwritten, hfull⟩ := hprogress
      by_contra hnot
      rw [not_or] at hnot
      have hmeasured : Measured label n _ := (measured_iff_of_written hk hwritten).mpr
        ⟨Nat.pos_of_ne_zero hnot.1, hfull.mpr hnot.2⟩
      obtain ⟨xs, line, sorted, -, hsome, -⟩ := hmeasured
      rw [hnone] at hsome
      cases hsome
    · exact Or.inr (Or.inr hnext)
  · intro hroom
    rcases hroom with hroom | hwhole
    · exact hlive.not_jammed hprogress hroom
    · exact (flow_run h (fun a ha => (hwhole a ha).1) fun a ha => (hwhole a ha).2).not_jammed hcap

/-- The child has taken five bytes for the request and is through, and the parent still waits. -/
theorem probe_unix_terminates_torn :
    ∃ s, run "AF_UNIX SOCK_STREAM" 1
        [.socketpair true, .fork true, .close, .childClose, .now 10, .write (.count 32), .childRead (.count 5),
          .childWrite (.count 32)] = some s ∧
      ¬ Jammed 32 s ∧ GoesOn "AF_UNIX SOCK_STREAM" 1 32 s := by
  have hrun : ∃ s, run "AF_UNIX SOCK_STREAM" 1
      [.socketpair true, .fork true, .close, .childClose, .now 10, .write (.count 32), .childRead (.count 5),
        .childWrite (.count 32)] = some s ∧ s.parent = .read 0 10 := ⟨_, rfl, rfl⟩
  obtain ⟨s, hs, hparent⟩ := hrun
  obtain ⟨-, hends, hroom⟩ := probe_unix_terminates hs (by decide) (show 32 ≤ 32 by decide)
  have hfree : ¬ Jammed 32 s := hroom (Or.inl (by decide))
  refine ⟨s, hs, hfree, ?_⟩
  rcases hends with ⟨hover, -⟩ | ⟨hreport, -⟩ | hjam | hnext
  · simp [hparent] at hover
  · cases hparent.symm.trans hreport
  · exact absurd hjam hfree
  · exact hnext

/-- Reads of one byte fill queues of one message, and both sides wait in a `write`. -/
example : ∃ s, run "AF_UNIX SOCK_STREAM" 2
    [.socketpair true, .fork true, .close, .childClose, .now 10, .write (.count 32), .childRead (.count 1),
      .childWrite (.count 32), .read (.count 1), .now 17, .now 20, .childRead (.count 1)] = some s ∧
    Jammed 32 s :=
  ⟨_, rfl, ⟨1, 20, rfl⟩, ⟨1, rfl⟩, by decide, by decide⟩

end UnixSocket
