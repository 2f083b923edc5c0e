import FabricManuals.Lib.Transition
import FabricManuals.Probe.Report

/-! # The socket pair, `probe_unix` of `probe.c`

Parent and child as processes with a stream of bytes in each direction.  An action is
one system call with the result it had, so that a list of actions is an interleaving
with an outcome for every call; `n` stands for `ITERS`.  Reading a packet is a read of
32 bytes.  A `write` that blocks is one that comes later in the list. -/
set_option autoImplicit false

namespace UnixSocket

open SampleBuffer

/-- What a `read` or a `write` returns; `failed` is below zero. -/
inductive Result
  | failed
  | count (k : Nat)
deriving DecidableEq

inductive Action
  | socketpair (ok : Bool)
  | fork (ok : Bool)
  | now (t : UInt64)
  | write (r : Result)
  | sigpipe
  | read (r : Result)
  | report
  | close
  | waitpid
  | childClose
  | childRead (r : Result)
  | childWrite (r : Result)
  | childSigpipe
  | childExit
deriving DecidableEq

/-- `closeOther` is before the `close` of the other side's socket. -/
inductive Parent
  | socketpair
  | fork
  | closeOther
  | start (i : Nat)
  | write (i : Nat) (t0 : UInt64)
  | read (i : Nat) (t0 : UInt64)
  | record (i : Nat) (t0 : UInt64)
  | report
  | close
  | waitpid
  | returned
  | killed
deriving DecidableEq

inductive Child
  | absent
  | closeOther
  | read (i : Nat)
  | write (i : Nat)
  | exit
  | exited
deriving DecidableEq

/-- The element `s[i]`, with the two readings of the clock it is the difference of. -/
structure Sample where
  i : Nat
  t0 : UInt64
  t1 : UInt64
deriving DecidableEq

def Sample.value (x : Sample) : UInt64 := x.t1 - x.t0

inductive Event
  | started (i : Nat) (t0 : UInt64)
  | wrote (i : Nat)
  | received (i : Nat)
  | stopped (i : Nat) (t1 : UInt64)
deriving DecidableEq

/-- The counts are bytes, over the whole run; the log is the parent's history, and no
step reads it. -/
structure State where
  parent : Parent
  child : Child
  requested : Nat
  consumed : Nat
  replied : Nat
  received : Nat
  s : Cells Sample
  printed : Option (Probe.Line Sample)
  log : List Event

/-- The parent closes `sv[1]` before it writes or reads, and the child `sv[0]`, so that
the end of either process closes its side. -/
def State.childClosed (s : State) : Prop := s.child = .absent ∨ s.child = .exited

def State.parentClosed (s : State) : Prop :=
  s.parent = .waitpid ∨ s.parent = .returned ∨ s.parent = .killed

instance (s : State) : Decidable s.childClosed := inferInstanceAs (Decidable (_ ∨ _))

instance (s : State) : Decidable s.parentClosed := inferInstanceAs (Decidable (_ ∨ _))

/-- What `read(fd, b, sizeof(b))` may return: a part of the queue, or the end of the
stream once the other side is closed. -/
def Readable (queued : Nat) (closed : Prop) (k : Nat) : Prop :=
  k ≤ 32 ∧ k ≤ queued ∧ (k = 0 → queued = 0 ∧ closed)

instance (queued : Nat) (closed : Prop) [Decidable closed] (k : Nat) :
    Decidable (Readable queued closed k) := inferInstanceAs (Decidable (_ ∧ _))

def parentTest (n i : Nat) : Parent := if i < n then .start i else .report

def childTest (n i : Nat) : Child := if i < n then .read i else .exit

def parentStep (label : String) (n : Nat) (s : State) (a : Action) : Option State :=
  match s.parent, a with
  | .socketpair, .socketpair ok => some { s with parent := if ok then .fork else .returned }
  | .fork, .fork ok =>
    some { s with parent := .closeOther, child := if ok then .closeOther else .absent }
  | .closeOther, .close => some { s with parent := parentTest n 0, s := malloc n }
  | .start i, .now t0 => some { s with parent := .write i t0, log := s.log ++ [.started i t0] }
  | .write _ _, .write .failed => some { s with parent := .report }
  | .write _ _, .sigpipe => if s.childClosed then some { s with parent := .killed } else none
  | .write i t0, .write (.count k) =>
    if k ≤ 32 ∧ ¬ s.childClosed then
      some { s with
        parent := .read i t0, requested := s.requested + k, log := s.log ++ [.wrote i] }
    else none
  | .read _ _, .read .failed => some { s with parent := .report }
  | .read i t0, .read (.count k) =>
    if Readable (s.replied - s.received) s.childClosed k then
      if k = 0 then some { s with parent := .report }
      else
        some { s with
          parent := .record i t0, received := s.received + k, log := s.log ++ [.received i] }
    else none
  | .record i t0, .now t1 =>
    some { s with
      parent := parentTest n (i + 1), s := store s.s i ⟨i, t0, t1⟩, log := s.log ++ [.stopped i t1] }
  | .report, .report =>
    -- a report that reads unwritten cells has no next state
    (Probe.report Sample.value label s.s n).map fun (line, sorted) =>
      { s with parent := .close, s := sorted, printed := some line }
  | .close, .close => some { s with parent := .waitpid }
  | .waitpid, .waitpid => if s.childClosed then some { s with parent := .returned } else none
  | _, _ => none

def childStep (n : Nat) (s : State) (a : Action) : Option State :=
  match s.child, a with
  | .closeOther, .childClose => some { s with child := childTest n 0 }
  | .read _, .childRead .failed => some { s with child := .exit }
  | .read i, .childRead (.count k) =>
    if Readable (s.requested - s.consumed) s.parentClosed k then
      if k = 0 then some { s with child := .exit }
      else some { s with child := .write i, consumed := s.consumed + k }
    else none
  | .write _, .childWrite .failed => some { s with child := .exit }
  | .write _, .childSigpipe => if s.parentClosed then some { s with child := .exited } else none
  | .write i, .childWrite (.count k) =>
    if k ≤ 32 ∧ ¬ s.parentClosed then
      some { s with child := childTest n (i + 1), replied := s.replied + k }
    else none
  | .exit, .childExit => some { s with child := .exited }
  | _, _ => none

def step (label : String) (n : Nat) (a : Action) (s : State) : Option State :=
  match a with
  | .childClose | .childRead _ | .childWrite _ | .childSigpipe | .childExit => childStep n s a
  | _ => parentStep label n s a

def start : State :=
  { parent := .socketpair, child := .absent, requested := 0, consumed := 0, replied := 0,
    received := 0, s := [], printed := none, log := [] }

def run (label : String) (n : Nat) (actions : List Action) : Option State :=
  Transition.runSchedule (step label n) actions start

/-- The steps with the calls they stand for, one after the other as the two loops make
them, and the ways out of the loops. -/
inductive Move (n : Nat) (s : State) : Action → State → Prop
  | socketpair {ok : Bool} {next : Parent} (h : s.parent = .socketpair)
    (hnext : next = .fork ∨ next = .returned) : Move n s (.socketpair ok) { s with parent := next }
  | fork {ok : Bool} {child : Child} (h : s.parent = .fork)
    (hchild : child = .closeOther ∨ child = .absent) :
    Move n s (.fork ok) { s with parent := .closeOther, child := child }
  | enter (h : s.parent = .closeOther) :
    Move n s .close { s with parent := parentTest n 0, s := malloc n }
  | start {i : Nat} {t0 : UInt64} (h : s.parent = .start i) :
    Move n s (.now t0) { s with parent := .write i t0, log := s.log ++ [.started i t0] }
  | write {i k : Nat} {t0 : UInt64} (h : s.parent = .write i t0) (hk : k ≤ 32) :
    Move n s (.write (.count k))
      { s with parent := .read i t0, requested := s.requested + k, log := s.log ++ [.wrote i] }
  | read {i k : Nat} {t0 : UInt64} (h : s.parent = .read i t0) (hpos : 0 < k) (hk : k ≤ 32)
    (hqueued : k ≤ s.replied - s.received) :
    Move n s (.read (.count k))
      { s with parent := .record i t0, received := s.received + k, log := s.log ++ [.received i] }
  | record {i : Nat} {t0 t1 : UInt64} (h : s.parent = .record i t0) :
    Move n s (.now t1)
      { s with
        parent := parentTest n (i + 1), s := store s.s i ⟨i, t0, t1⟩, log := s.log ++ [.stopped i t1] }
  | broke {a : Action} {i : Nat} {t0 : UInt64} (h : s.parent = .write i t0 ∨ s.parent = .read i t0)
    (ha : a = .write .failed ∨ a = .read .failed ∨ a = .read (.count 0)) :
    Move n s a { s with parent := .report }
  | killed : Move n s .sigpipe { s with parent := .killed }
  | leave {a : Action} {next : Parent} {cells : Cells Sample} {printed : Option (Probe.Line Sample)}
    (hnext : next = .close ∨ next = .waitpid ∨ next = .returned) :
    Move n s a { s with parent := next, s := cells, printed := printed }
  | childEnter (h : s.child = .closeOther) : Move n s .childClose { s with child := childTest n 0 }
  | childRead {i k : Nat} (h : s.child = .read i) (hk : k ≤ 32)
    (hqueued : k ≤ s.requested - s.consumed) :
    Move n s (.childRead (.count k)) { s with child := .write i, consumed := s.consumed + k }
  | childWrite {i k : Nat} (h : s.child = .write i) (hk : k ≤ 32) :
    Move n s (.childWrite (.count k))
      { s with child := childTest n (i + 1), replied := s.replied + k }
  | childLeft {a : Action}
    (ha : a = .childRead .failed ∨ a = .childRead (.count 0) ∨ a = .childWrite .failed) :
    Move n s a { s with child := .exit }
  | childKilled : Move n s .childSigpipe { s with child := .exited }
  | childExit (h : s.child = .exit) : Move n s .childExit { s with child := .exited }

section Steps
variable {label : String} {n : Nat} {a : Action} {s s' : State}

theorem move_of_parentStep (hstep : parentStep label n s a = some s') : Move n s a s' := by
  unfold parentStep at hstep
  split at hstep <;> rename_i hparent
  case h_1 ok =>
    obtain rfl := Option.some.inj hstep
    cases ok
    · exact .socketpair hparent (Or.inr rfl)
    · exact .socketpair hparent (Or.inl rfl)
  case h_2 ok =>
    obtain rfl := Option.some.inj hstep
    cases ok
    · exact .fork hparent (Or.inr rfl)
    · exact .fork hparent (Or.inl rfl)
  case h_3 =>
    obtain rfl := Option.some.inj hstep
    exact .enter hparent
  case h_4 i t0 =>
    obtain rfl := Option.some.inj hstep
    exact .start hparent
  case h_5 i t0 =>
    obtain rfl := Option.some.inj hstep
    exact .broke (Or.inl hparent) (Or.inl rfl)
  case h_6 i t0 =>
    obtain ⟨-, hs'⟩ := Option.ite_none_right_eq_some.mp hstep
    obtain rfl := Option.some.inj hs'
    exact .killed
  case h_7 i t0 k =>
    obtain ⟨⟨hk, -⟩, hs'⟩ := Option.ite_none_right_eq_some.mp hstep
    obtain rfl := Option.some.inj hs'
    exact .write hparent hk
  case h_8 i t0 =>
    obtain rfl := Option.some.inj hstep
    exact .broke (Or.inr hparent) (Or.inr (Or.inl rfl))
  case h_9 i t0 k =>
    obtain ⟨⟨hk, hqueued, -⟩, hs'⟩ := Option.ite_none_right_eq_some.mp hstep
    rcases Nat.eq_zero_or_pos k with rfl | hpos
    · obtain rfl := Option.some.inj hs'
      exact .broke (Or.inr hparent) (Or.inr (Or.inr rfl))
    · rw [if_neg hpos.ne'] at hs'
      obtain rfl := Option.some.inj hs'
      exact .read hparent hpos hk hqueued
  case h_10 i t0 t1 =>
    obtain rfl := Option.some.inj hstep
    exact .record hparent
  case h_11 =>
    obtain ⟨printed, -, rfl⟩ := Option.map_eq_some_iff.mp hstep
    exact .leave (Or.inl rfl)
  case h_12 =>
    obtain rfl := Option.some.inj hstep
    exact .leave (Or.inr (Or.inl rfl))
  case h_13 =>
    obtain ⟨-, hs'⟩ := Option.ite_none_right_eq_some.mp hstep
    obtain rfl := Option.some.inj hs'
    exact .leave (Or.inr (Or.inr rfl))
  case h_14 => exact absurd hstep (by nofun)

theorem move_of_childStep (hstep : childStep n s a = some s') : Move n s a s' := by
  unfold childStep at hstep
  split at hstep <;> rename_i hchild
  case h_1 =>
    obtain rfl := Option.some.inj hstep
    exact .childEnter hchild
  case h_2 i =>
    obtain rfl := Option.some.inj hstep
    exact .childLeft (Or.inl rfl)
  case h_3 i k =>
    obtain ⟨⟨hk, hqueued, -⟩, hs'⟩ := Option.ite_none_right_eq_some.mp hstep
    rcases Nat.eq_zero_or_pos k with rfl | hpos
    · obtain rfl := Option.some.inj hs'
      exact .childLeft (Or.inr (Or.inl rfl))
    · rw [if_neg hpos.ne'] at hs'
      obtain rfl := Option.some.inj hs'
      exact .childRead hchild hk hqueued
  case h_4 i =>
    obtain rfl := Option.some.inj hstep
    exact .childLeft (Or.inr (Or.inr rfl))
  case h_5 i =>
    obtain ⟨-, hs'⟩ := Option.ite_none_right_eq_some.mp hstep
    obtain rfl := Option.some.inj hs'
    exact .childKilled
  case h_6 i k =>
    obtain ⟨⟨hk, -⟩, hs'⟩ := Option.ite_none_right_eq_some.mp hstep
    obtain rfl := Option.some.inj hs'
    exact .childWrite hchild hk
  case h_7 =>
    obtain rfl := Option.some.inj hstep
    exact .childExit hchild
  case h_8 => exact absurd hstep (by nofun)

theorem move_of_step (hstep : step label n a s = some s') : Move n s a s' := by
  cases a with
  | childClose | childRead | childWrite | childSigpipe | childExit => exact move_of_childStep hstep
  | _ => exact move_of_parentStep hstep

end Steps

end UnixSocket
