import FabricManuals.Lib.Transition

/-! # The busy-polled ring, `probe_shm_ring` of `probe.c`

Parent and child as processes that share `req` and `rsp`.  A step is one load or
store of them, or what a process does on its own; `n` stands for `ITERS`.  The log is
the history of the stores and the samples, and no step reads it. -/
set_option autoImplicit false

namespace ShmRing

def UINT64_MAX : UInt64 := 0xFFFFFFFFFFFFFFFF

inductive Parent
  | storeReq (i : Nat)
  | loadRsp (i : Nat)
  | record (i : Nat)
  | storeStop
  | waitpid
  | done
deriving DecidableEq

inductive Child
  | spin
  | loadSeen
  | test
  | storeRsp
  | exited
deriving DecidableEq

inductive Event
  | req (v : UInt64)
  | rsp (v : UInt64)
  | sample (i : Nat)
deriving DecidableEq

structure State where
  req : UInt64
  rsp : UInt64
  parent : Parent
  child : Child
  seen : UInt64
  log : List Event
deriving DecidableEq

/-- The test at the head of `for (int i = 1; i <= ITERS; i++)`. -/
def loopTest (n i : Nat) : Parent := if i ≤ n then .storeReq i else .storeStop

def parentStep (n : Nat) (s : State) : Option State :=
  match s.parent with
  | .storeReq i =>
    some { s with req := .ofNat i, parent := .loadRsp i, log := s.log ++ [.req (.ofNat i)] }
  | .loadRsp i => some { s with parent := if s.rsp = .ofNat i then .record i else .loadRsp i }
  | .record i => some { s with parent := loopTest n (i + 1), log := s.log ++ [.sample i] }
  | .storeStop =>
    some { s with req := UINT64_MAX, parent := .waitpid, log := s.log ++ [.req UINT64_MAX] }
  | .waitpid => if s.child = .exited then some { s with parent := .done } else none
  | .done => none

def childStep (s : State) : Option State :=
  match s.child with
  | .spin => some { s with child := if s.req = s.seen then .spin else .loadSeen }
  | .loadSeen => some { s with seen := s.req, child := .test }
  | .test => some { s with child := if s.seen = UINT64_MAX then .exited else .storeRsp }
  | .storeRsp => some { s with rsp := s.seen, child := .spin, log := s.log ++ [.rsp s.seen] }
  | .exited => none

inductive Process
  | parent
  | child
deriving DecidableEq

def step (n : Nat) : Process → State → Option State
  | .parent => parentStep n
  | .child => childStep

def start (n : Nat) : State :=
  { req := 0, rsp := 0, parent := loopTest n 1, child := .spin, seen := 0, log := [] }

def Reachable (n : Nat) (s : State) : Prop := Transition.Reachable (step n) (start n) s

def Final (s : State) : Prop := s.parent = .done ∧ s.child = .exited

instance (s : State) : Decidable (Final s) := inferInstanceAs (Decidable (_ ∧ _))

def answer : Event → Option UInt64
  | .rsp v => some v
  | _ => none

def sampled : Event → Option Nat
  | .sample i => some i
  | _ => none

def answers (log : List Event) : List UInt64 := log.filterMap answer

def samples (log : List Event) : List Nat := log.filterMap sampled

end ShmRing
