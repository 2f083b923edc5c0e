import FabricManuals.Lib.ReleaseAcquire
import FabricManuals.Probe.Lockstep
import Mathlib.Order.Nat

/-! # The ring in a release-acquire memory

The loads and stores of `probe_shm_ring` are `memory_order_acquire` and
`memory_order_release`, so a load may also return a value that has been overwritten.
It never matters: what is left of a run when such loads are taken out is a run of the
two registers. -/
set_option autoImplicit false

namespace ShmRing

open Transition ReleaseAcquire

inductive Loc
  | req
  | rsp
deriving DecidableEq

/-- What the memory leaves open in a step: the place of a store, the message of a load. -/
inductive Choice (τ : Type)
  | own
  | place (t : τ)
  | message (i : Nat)

structure Machine (τ : Type) where
  memory : Memory Loc τ UInt64
  parentView : View Loc τ
  childView : View Loc τ
  parent : Parent
  child : Child
  seen : UInt64
  log : List Event

section Steps
variable {τ : Type} [LinearOrder τ]

def parentAct (n : Nat) (c : Choice τ) (w : Machine τ) : Option (Machine τ) :=
  match w.parent, c with
  | .storeReq i, .place t =>
    (store w.memory w.parentView .req t (.ofNat i)).map fun (memory, view) =>
      { w with
        memory := memory, parentView := view, parent := .loadRsp i, log := w.log ++ [.req (.ofNat i)] }
  | .loadRsp i, .message j =>
    (load w.memory w.parentView .rsp j).map fun (v, view) =>
      { w with parentView := view, parent := if v = .ofNat i then .record i else .loadRsp i }
  | .record i, .own => some { w with parent := loopTest n (i + 1), log := w.log ++ [.sample i] }
  | .storeStop, .place t =>
    (store w.memory w.parentView .req t UINT64_MAX).map fun (memory, view) =>
      { w with
        memory := memory, parentView := view, parent := .waitpid, log := w.log ++ [.req UINT64_MAX] }
  | .waitpid, .own => if w.child = .exited then some { w with parent := .done } else none
  | _, _ => none

def childAct (c : Choice τ) (w : Machine τ) : Option (Machine τ) :=
  match w.child, c with
  | .spin, .message j =>
    (load w.memory w.childView .req j).map fun (v, view) =>
      { w with childView := view, child := if v = w.seen then .spin else .loadSeen }
  | .loadSeen, .message j =>
    (load w.memory w.childView .req j).map fun (v, view) =>
      { w with childView := view, seen := v, child := .test }
  | .test, .own => some { w with child := if w.seen = UINT64_MAX then .exited else .storeRsp }
  | .storeRsp, .place t =>
    (store w.memory w.childView .rsp t w.seen).map fun (memory, view) =>
      { w with memory := memory, childView := view, child := .spin, log := w.log ++ [.rsp w.seen] }
  | _, _ => none

def act (n : Nat) : Process × Choice τ → Machine τ → Option (Machine τ)
  | (.parent, c) => parentAct n c
  | (.child, c) => childAct c

/-- Both stores of 0 come before the `fork`. -/
def boot (n : Nat) (t : τ) : Machine τ :=
  { memory := fun _ => [⟨t, 0, fun _ => t⟩], parentView := fun _ => t, childView := fun _ => t,
    parent := loopTest n 1, child := .spin, seen := 0, log := [] }

def Boots (n : Nat) (t : τ) (w : Machine τ) : Prop := Transition.Reachable (act n) (boot n t) w

end Steps

def Machine.flat {τ : Type} (w : Machine τ) : State :=
  { req := (newest w.memory .req).getD 0, rsp := (newest w.memory .rsp).getD 0, parent := w.parent,
    child := w.child, seen := w.seen, log := w.log }

/-! ## The invariant -/

/-- Each of the two has seen the newest value of the other, but for the parent while it
waits for an answer that is there already, and for the child while it spins over one. -/
structure Coherent {τ : Type} [LinearOrder τ] (w : Machine τ) (front : View Loc τ) : Prop where
  ordered : Ordered w.memory front
  parentWithin : Within w.parentView front
  childWithin : Within w.childView front
  parentOwns : Fresh w.parentView front .req
  childOwns : Fresh w.childView front .rsp
  answer : Fresh w.parentView front .rsp ∨ ∃ i old, w.parent = .loadRsp i ∧ old ≠ .ofNat i ∧
    w.flat.rsp = .ofNat i ∧ Behind w.memory w.parentView .rsp old
  request : Fresh w.childView front .req ∨ w.child = .spin ∧ w.flat.req ≠ w.seen ∧
    Behind w.memory w.childView .req w.seen

section Invariant
variable {τ : Type} [LinearOrder τ] {n : Nat} {w w' : Machine τ} {front : View Loc τ}

theorem newest_req (h : Ordered w.memory front) : newest w.memory .req = some w.flat.req := by
  obtain ⟨pre, m, hM, -⟩ := h.last .req
  rw [Machine.flat, newest, hM, List.getLast?_concat]
  rfl

theorem newest_rsp (h : Ordered w.memory front) : newest w.memory .rsp = some w.flat.rsp := by
  obtain ⟨pre, m, hM, -⟩ := h.last .rsp
  rw [Machine.flat, newest, hM, List.getLast?_concat]
  rfl

/-! Where the two are when one of them stores. -/

theorem phase_asks (hmax : n < 2 ^ 64 - 1) {s : State} (h : Phase n s) {v : UInt64}
    (hv : (∃ i, s.parent = .storeReq i ∧ v = .ofNat i) ∨ s.parent = .storeStop ∧ v = UINT64_MAX) :
    s.child = .spin ∧ s.req = s.seen ∧ v ≠ s.seen := by
  cases h with
  | ready hk =>
      rcases hv with ⟨i, hi, rfl⟩ | ⟨hi, -⟩
      · obtain rfl := Parent.storeReq.inj hi
        exact ⟨rfl, rfl, ofNat_succ_ne _⟩
      · cases hi
  | finished =>
      rcases hv with ⟨i, hi, -⟩ | ⟨-, rfl⟩
      · cases hi
      · exact ⟨rfl, rfl, (ofNat_ne_max hmax le_rfl).symm⟩
  | _ => rcases hv with ⟨i, hi, -⟩ | ⟨hi, -⟩ <;> cases hi

theorem phase_answers {s : State} (h : Phase n s) (hs : s.child = .storeRsp) :
    ∃ i, s.parent = .loadRsp i ∧ s.seen = .ofNat i ∧ s.rsp ≠ .ofNat i := by
  cases h with
  | tested hk => exact ⟨_, rfl, rfl, (ofNat_succ_ne _).symm⟩
  | _ => cases hs

theorem Coherent.ask (h : Coherent w front) (hparent : ∀ i, w.parent ≠ .loadRsp i)
    (hchild : w.child = .spin) (hseen : w.flat.req = w.seen) {v : UInt64} (hv : v ≠ w.seen) {t : τ}
    (hlt : w.parentView .req < t) (parent : Parent) (log : List Event) :
    Coherent { w with
      memory := append w.memory .req ⟨t, v, put w.parentView .req t⟩
      parentView := put w.parentView .req t
      parent := parent
      log := log } (put front .req t) := by
  have hne : Loc.rsp ≠ Loc.req := by decide
  have hfront : front .req < t := h.parentOwns ▸ hlt
  have hfresh : Fresh w.childView front .req := by
    rcases h.request with hfresh | ⟨-, hnot, -⟩
    · exact hfresh
    · exact absurd hseen hnot
  constructor
  case ordered => exact ordered_store h.ordered h.parentWithin h.parentOwns hlt v
  case parentWithin => exact within_put h.parentWithin .req t
  case childWithin => exact within_front_put h.childWithin hfront
  case parentOwns => exact fresh_put _ _ _ _
  case childOwns => exact fresh_front_put h.childOwns hne t
  case answer =>
    left
    rcases h.answer with hfresh | ⟨i, -, hi, -⟩
    · exact fresh_put_ne hfresh hne t
    · exact absurd hi (hparent i)
  case request =>
    right
    refine ⟨hchild, ?_, ?_⟩
    · rw [Machine.flat, newest_append]
      exact hv
    · exact behind_of_store h.ordered hfresh (by rw [newest_req h.ordered, hseen]) _

theorem Coherent.reply (h : Coherent w front) {i : Nat} (hparent : w.parent = .loadRsp i)
    (hseen : w.seen = .ofNat i) (hrsp : w.flat.rsp ≠ .ofNat i) (hchild : w.child ≠ .spin) {t : τ}
    (hlt : w.childView .rsp < t) (log : List Event) :
    Coherent { w with
      memory := append w.memory .rsp ⟨t, w.seen, put w.childView .rsp t⟩
      childView := put w.childView .rsp t
      child := .spin
      log := log } (put front .rsp t) := by
  have hne : Loc.req ≠ Loc.rsp := by decide
  have hfront : front .rsp < t := h.childOwns ▸ hlt
  have hfresh : Fresh w.parentView front .rsp := by
    rcases h.answer with hfresh | ⟨j, old, hj, -, hthere, -⟩
    · exact hfresh
    · obtain rfl := Parent.loadRsp.inj (hparent.symm.trans hj)
      exact absurd hthere hrsp
  constructor
  case ordered => exact ordered_store h.ordered h.childWithin h.childOwns hlt w.seen
  case parentWithin => exact within_front_put h.parentWithin hfront
  case childWithin => exact within_put h.childWithin .rsp t
  case parentOwns => exact fresh_front_put h.parentOwns hne t
  case childOwns => exact fresh_put _ _ _ _
  case answer =>
    right
    refine ⟨i, w.flat.rsp, hparent, hrsp, ?_, ?_⟩
    · rw [Machine.flat, newest_append]
      exact hseen
    · exact behind_of_store h.ordered hfresh (newest_rsp h.ordered) _
  case request =>
    left
    rcases h.request with hfresh | ⟨hspin, -⟩
    · exact fresh_put_ne hfresh hne t
    · exact absurd hspin hchild

/-! ## One step of the machine -/

theorem Coherent.loadRsp (h : Coherent w front) {i : Nat} (hparent : w.parent = .loadRsp i)
    {m : Message Loc τ UInt64} (hm : m ∈ w.memory .rsp) (hle : w.parentView .rsp ≤ m.time) :
    (m.value = w.flat.rsp ∧ Fresh (join w.parentView m.view) front .rsp) ∨
      m.value ≠ .ofNat i ∧ w.flat.rsp = .ofNat i ∧
        ∃ old, old ≠ .ofNat i ∧ Behind w.memory (join w.parentView m.view) .rsp old := by
  have hnewest := newest_rsp h.ordered
  rcases h.answer with hfresh | ⟨j, old, hj, hold, hthere, hbehind⟩
  · left
    have hvalue := newest_of_fresh h.ordered hfresh hm hle
    exact ⟨Option.some.inj (hvalue.symm.trans hnewest), fresh_join h.ordered hm hfresh⟩
  · obtain rfl := Parent.loadRsp.inj (hparent.symm.trans hj)
    rcases load_of_behind h.ordered hbehind hm hle with ⟨hvalue, hview⟩ | ⟨hvalue, hfresh⟩
    · right
      obtain ⟨pre, seen, new, hM, hseen, hvalue'⟩ := hbehind
      exact ⟨hvalue ▸ hold, hthere, old, hold, pre, seen, new, hM, hview.trans hseen, hvalue'⟩
    · left
      exact ⟨Option.some.inj (hvalue.symm.trans hnewest), hfresh⟩

theorem Coherent.loadReq (h : Coherent w front) {m : Message Loc τ UInt64} (hm : m ∈ w.memory .req)
    (hle : w.childView .req ≤ m.time) :
    (m.value = w.flat.req ∧ Fresh (join w.childView m.view) front .req) ∨
      w.child = .spin ∧ m.value = w.seen ∧ w.flat.req ≠ w.seen ∧
        Behind w.memory (join w.childView m.view) .req w.seen := by
  have hnewest := newest_req h.ordered
  rcases h.request with hfresh | ⟨hspin, hnot, hbehind⟩
  · left
    have hvalue := newest_of_fresh h.ordered hfresh hm hle
    exact ⟨Option.some.inj (hvalue.symm.trans hnewest), fresh_join h.ordered hm hfresh⟩
  · rcases load_of_behind h.ordered hbehind hm hle with ⟨hvalue, hview⟩ | ⟨hvalue, hfresh⟩
    · right
      obtain ⟨pre, seen, new, hM, hseen, hvalue'⟩ := hbehind
      exact ⟨hspin, hvalue, hnot, pre, seen, new, hM, hview.trans hseen, hvalue'⟩
    · left
      exact ⟨Option.some.inj (hvalue.symm.trans hnewest), hfresh⟩

/-- A step on the registers, or none; and the threads have seen what they have to. -/
def Refines (n : Nat) (p : Process) (w w' : Machine τ) : Prop :=
  (w'.flat = w.flat ∨ step n p w.flat = some w'.flat) ∧ ∃ front, Coherent w' front

theorem Coherent.parent_own (h : Coherent w front) {parent : Parent} (log : List Event)
    (hparent : ∀ i, w.parent ≠ .loadRsp i) : Coherent { w with parent := parent, log := log } front := by
  refine ⟨h.ordered, h.parentWithin, h.childWithin, h.parentOwns, h.childOwns, Or.inl ?_, h.request⟩
  rcases h.answer with hfresh | ⟨i, -, hi, -⟩
  · exact hfresh
  · exact absurd hi (hparent i)

theorem parentAct_refines (hmax : n < 2 ^ 64 - 1) (hphase : Phase n w.flat) (h : Coherent w front)
    {c : Choice τ} (hact : parentAct n c w = some w') : Refines n .parent w w' := by
  unfold parentAct at hact
  split at hact <;> rename_i hparent
  case h_1 i t =>
    obtain ⟨⟨memory, view⟩, hstore, rfl⟩ := Option.map_eq_some_iff.mp hact
    obtain ⟨hlt, rfl, rfl⟩ := store_eq_some hstore
    obtain ⟨hchild, hseen, hv⟩ := phase_asks hmax hphase (Or.inl ⟨i, hparent, rfl⟩)
    refine ⟨Or.inr ?_, _, h.ask (by simp [hparent]) hchild hseen hv hlt _ _⟩
    have hflat : w.flat.parent = .storeReq i := hparent
    rw [step, parentStep, hflat]
    simp only [Machine.flat, newest_append, newest_append_ne w.memory (show Loc.rsp ≠ Loc.req by decide)]
    rfl
  case h_2 i j =>
    obtain ⟨⟨v, view⟩, hload, rfl⟩ := Option.map_eq_some_iff.mp hact
    obtain ⟨m, hm, hle, rfl, rfl⟩ := load_eq_some hload
    have hflat : w.flat.parent = .loadRsp i := hparent
    have hwithin := within_join h.ordered h.parentWithin hm
    have howns := fresh_join h.ordered hm h.parentOwns
    rcases h.loadRsp hparent hm hle with ⟨hvalue, hfresh⟩ | ⟨hvalue, hthere, old, hold, hbehind⟩
    · refine ⟨Or.inr ?_, front, h.ordered, hwithin, h.childWithin, howns, h.childOwns, Or.inl hfresh,
        h.request⟩
      rw [step, parentStep, hflat, hvalue]
      rfl
    · simp only [if_neg hvalue]
      refine ⟨Or.inl ?_, front, h.ordered, hwithin, h.childWithin, howns, h.childOwns,
        Or.inr ⟨i, old, rfl, hold, hthere, hbehind⟩, h.request⟩
      rw [Machine.flat, Machine.flat, hparent]
  case h_3 i =>
    obtain rfl := Option.some.inj hact
    have hflat : w.flat.parent = .record i := hparent
    refine ⟨Or.inr ?_, front, h.parent_own _ (by simp [hparent])⟩
    rw [step, parentStep, hflat]
    rfl
  case h_4 t =>
    obtain ⟨⟨memory, view⟩, hstore, rfl⟩ := Option.map_eq_some_iff.mp hact
    obtain ⟨hlt, rfl, rfl⟩ := store_eq_some hstore
    obtain ⟨hchild, hseen, hv⟩ := phase_asks hmax hphase (Or.inr ⟨hparent, rfl⟩)
    refine ⟨Or.inr ?_, _, h.ask (by simp [hparent]) hchild hseen hv hlt _ _⟩
    have hflat : w.flat.parent = .storeStop := hparent
    rw [step, parentStep, hflat]
    simp only [Machine.flat, newest_append, newest_append_ne w.memory (show Loc.rsp ≠ Loc.req by decide)]
    rfl
  case h_5 =>
    obtain ⟨hexited, heq⟩ := Option.ite_none_right_eq_some.mp hact
    obtain rfl := Option.some.inj heq
    have hflat : w.flat.parent = .waitpid := hparent
    refine ⟨Or.inr ?_, front, h.parent_own w.log (by simp [hparent])⟩
    rw [step, parentStep, hflat]
    exact if_pos hexited
  case h_6 => cases hact

theorem childAct_refines (hphase : Phase n w.flat) (h : Coherent w front) {c : Choice τ}
    (hact : childAct c w = some w') : Refines n .child w w' := by
  unfold childAct at hact
  split at hact <;> rename_i hchild
  case h_1 j =>
    obtain ⟨⟨v, view⟩, hload, rfl⟩ := Option.map_eq_some_iff.mp hact
    obtain ⟨m, hm, hle, rfl, rfl⟩ := load_eq_some hload
    have hflat : w.flat.child = .spin := hchild
    have hwithin := within_join h.ordered h.childWithin hm
    have howns := fresh_join h.ordered hm h.childOwns
    rcases h.loadReq hm hle with ⟨hvalue, hfresh⟩ | ⟨-, hvalue, hnot, hbehind⟩
    · refine ⟨Or.inr ?_, front, h.ordered, h.parentWithin, hwithin, h.parentOwns, howns, h.answer,
        Or.inl hfresh⟩
      rw [step, childStep, hflat, hvalue]
      rfl
    · simp only [if_pos hvalue]
      refine ⟨Or.inl ?_, front, h.ordered, h.parentWithin, hwithin, h.parentOwns, howns, h.answer,
        Or.inr ⟨rfl, hnot, hbehind⟩⟩
      rw [Machine.flat, Machine.flat, hchild]
  case h_2 j =>
    obtain ⟨⟨v, view⟩, hload, rfl⟩ := Option.map_eq_some_iff.mp hact
    obtain ⟨m, hm, hle, rfl, rfl⟩ := load_eq_some hload
    have hflat : w.flat.child = .loadSeen := hchild
    rcases h.loadReq hm hle with ⟨hvalue, hfresh⟩ | ⟨hspin, -⟩
    · refine ⟨Or.inr ?_, front, h.ordered, h.parentWithin, within_join h.ordered h.childWithin hm,
        h.parentOwns, fresh_join h.ordered hm h.childOwns, h.answer, Or.inl hfresh⟩
      rw [step, childStep, hflat, hvalue]
      rfl
    · cases hchild.symm.trans hspin
  case h_3 =>
    obtain rfl := Option.some.inj hact
    have hflat : w.flat.child = .test := hchild
    have hfresh : Fresh w.childView front .req := by
      rcases h.request with hfresh | ⟨hspin, -⟩
      · exact hfresh
      · cases hchild.symm.trans hspin
    refine ⟨Or.inr ?_, front, h.ordered, h.parentWithin, h.childWithin, h.parentOwns, h.childOwns,
      h.answer, Or.inl hfresh⟩
    rw [step, childStep, hflat]
    rfl
  case h_4 t =>
    obtain ⟨⟨memory, view⟩, hstore, rfl⟩ := Option.map_eq_some_iff.mp hact
    obtain ⟨hlt, rfl, rfl⟩ := store_eq_some hstore
    obtain ⟨i, hparent, hseen, hrsp⟩ := phase_answers hphase hchild
    refine ⟨Or.inr ?_, _, h.reply hparent hseen hrsp (by simp [hchild]) hlt _⟩
    have hflat : w.flat.child = .storeRsp := hchild
    rw [step, childStep, hflat]
    simp only [Machine.flat, newest_append, newest_append_ne w.memory (show Loc.req ≠ Loc.rsp by decide)]
    rfl
  case h_5 => cases hact

/-! ## The machine and the registers -/

theorem coherent_boot (n : Nat) (t : τ) : Coherent (boot n t) fun _ => t where
  ordered := ordered_start t 0
  parentWithin := fun _ => le_refl t
  childWithin := fun _ => le_refl t
  parentOwns := rfl
  childOwns := rfl
  answer := Or.inl rfl
  request := Or.inl rfl

theorem refines_act (hmax : n < 2 ^ 64 - 1) (hphase : Phase n w.flat) (h : Coherent w front)
    {p : Process} {c : Choice τ} (hact : act n (p, c) w = some w') : Refines n p w w' := by
  cases p with
  | parent => exact parentAct_refines hmax hphase h hact
  | child => exact childAct_refines hphase h hact

/-- Taking out the loads that keep a process where it is leaves a run of the registers. -/
theorem reachable_flat (hmax : n < 2 ^ 64 - 1) {t : τ} (h : Boots n t w) :
    Reachable n w.flat ∧ ∃ front, Coherent w front := by
  refine invariant (I := fun w => Reachable n w.flat ∧ ∃ front, Coherent w front) ?_ ?_ h
  · exact ⟨Relation.ReflTransGen.refl, _, coherent_boot n t⟩
  · rintro ⟨p, c⟩ w w' ⟨hreach, front, hcoherent⟩ hact
    obtain ⟨hflat, hcoherent'⟩ := refines_act hmax (phase_of_reachable hmax hreach) hcoherent hact
    refine ⟨?_, hcoherent'⟩
    rcases hflat with hflat | hflat
    · rwa [hflat]
    · exact hreach.tail ⟨p, hflat⟩

/-- Every step of the registers is a step of the machine: the load of the newest message, a
store behind all others. -/
theorem exists_act [NoMaxOrder τ] (h : Coherent w front) {p : Process} {s : State}
    (hstep : step n p w.flat = some s) : ∃ c w', act n (p, c) w = some w' ∧ w'.flat = s := by
  cases p with
  | parent =>
      cases hparent : w.parent with
      | storeReq i =>
          obtain ⟨t, -, hstore⟩ := exists_store h.ordered h.parentOwns (UInt64.ofNat i)
          refine ⟨.place t, _, by simp only [act, parentAct, hparent, hstore]; rfl, ?_⟩
          rw [step, parentStep, show w.flat.parent = .storeReq i from hparent] at hstep
          rw [← Option.some.inj hstep]
          simp only [Machine.flat, newest_append, newest_append_ne w.memory (show Loc.rsp ≠ Loc.req by decide)]
          rfl
      | loadRsp i =>
          obtain ⟨j, m, -, hload, hvalue, -⟩ := exists_load (x := Loc.rsp) h.ordered h.parentWithin
          refine ⟨.message j, _, by simp only [act, parentAct, hparent, hload]; rfl, ?_⟩
          have hm : m.value = w.flat.rsp := Option.some.inj (hvalue.symm.trans (newest_rsp h.ordered))
          rw [step, parentStep, show w.flat.parent = .loadRsp i from hparent] at hstep
          rw [← Option.some.inj hstep, hm]
          rfl
      | record i =>
          refine ⟨.own, _, by simp only [act, parentAct, hparent]; rfl, ?_⟩
          rw [step, parentStep, show w.flat.parent = .record i from hparent] at hstep
          exact Option.some.inj hstep
      | storeStop =>
          obtain ⟨t, -, hstore⟩ := exists_store h.ordered h.parentOwns UINT64_MAX
          refine ⟨.place t, _, by simp only [act, parentAct, hparent, hstore]; rfl, ?_⟩
          rw [step, parentStep, show w.flat.parent = .storeStop from hparent] at hstep
          rw [← Option.some.inj hstep]
          simp only [Machine.flat, newest_append, newest_append_ne w.memory (show Loc.rsp ≠ Loc.req by decide)]
          rfl
      | waitpid =>
          rw [step, parentStep, show w.flat.parent = .waitpid from hparent] at hstep
          obtain ⟨hexited, heq⟩ := Option.ite_none_right_eq_some.mp hstep
          refine ⟨.own, _, by simp only [act, parentAct, hparent]; exact if_pos hexited, ?_⟩
          exact Option.some.inj heq
      | done =>
          rw [step, parentStep, show w.flat.parent = .done from hparent] at hstep
          cases hstep
  | child =>
      cases hchild : w.child with
      | spin =>
          obtain ⟨j, m, -, hload, hvalue, -⟩ := exists_load (x := Loc.req) h.ordered h.childWithin
          refine ⟨.message j, _, by simp only [act, childAct, hchild, hload]; rfl, ?_⟩
          have hm : m.value = w.flat.req := Option.some.inj (hvalue.symm.trans (newest_req h.ordered))
          rw [step, childStep, show w.flat.child = .spin from hchild] at hstep
          rw [← Option.some.inj hstep, hm]
          rfl
      | loadSeen =>
          obtain ⟨j, m, -, hload, hvalue, -⟩ := exists_load (x := Loc.req) h.ordered h.childWithin
          refine ⟨.message j, _, by simp only [act, childAct, hchild, hload]; rfl, ?_⟩
          have hm : m.value = w.flat.req := Option.some.inj (hvalue.symm.trans (newest_req h.ordered))
          rw [step, childStep, show w.flat.child = .loadSeen from hchild] at hstep
          rw [← Option.some.inj hstep, hm]
          rfl
      | test =>
          refine ⟨.own, _, by simp only [act, childAct, hchild]; rfl, ?_⟩
          rw [step, childStep, show w.flat.child = .test from hchild] at hstep
          exact Option.some.inj hstep
      | storeRsp =>
          obtain ⟨t, -, hstore⟩ := exists_store h.ordered h.childOwns w.seen
          refine ⟨.place t, _, by simp only [act, childAct, hchild, hstore]; rfl, ?_⟩
          rw [step, childStep, show w.flat.child = .storeRsp from hchild] at hstep
          rw [← Option.some.inj hstep]
          simp only [Machine.flat, newest_append, newest_append_ne w.memory (show Loc.req ≠ Loc.rsp by decide)]
          rfl
      | exited =>
          rw [step, childStep, show w.flat.child = .exited from hchild] at hstep
          cases hstep

/-- With acquire loads and release stores the ring reaches exactly the states that the two
registers reach, so it goes in lockstep just as they do. -/
theorem release_acquire_lockstep [NoMaxOrder τ] (hmax : n < 2 ^ 64 - 1) (t : τ) :
    (∀ w, Boots n t w → Lockstep n w.flat) ∧ ∀ s, (∃ w, Boots n t w ∧ w.flat = s) ↔ Reachable n s := by
  refine ⟨fun w h => lockstep_of_phase hmax (phase_of_reachable hmax (reachable_flat hmax h).1), fun s => ⟨?_, fun h => ?_⟩⟩
  · rintro ⟨w, h, rfl⟩
    exact (reachable_flat hmax h).1
  · induction h with
    | refl => exact ⟨boot n t, Relation.ReflTransGen.refl, rfl⟩
    | @tail s s' _ hlast ih =>
        obtain ⟨w, hw, rfl⟩ := ih
        obtain ⟨p, hstep⟩ := hlast
        obtain ⟨front, hcoherent⟩ := (reachable_flat hmax hw).2
        obtain ⟨c, w', hact, hflat⟩ := exists_act hcoherent hstep
        exact ⟨w', hw.tail ⟨(p, c), hact⟩, hflat⟩

end Invariant

/-- The parent waits for 1, which the child has stored at place 9, and has loaded the 0
below it once more. -/
def staleAnswer : List (Process × Choice Nat) :=
  [(.parent, .place 4), (.child, .message 0), (.child, .message 1), (.child, .message 1), (.child, .own),
    (.child, .place 9), (.parent, .message 0)]

theorem release_acquire_lockstep_stale :
    ∃ w, runSchedule (act 2) staleAnswer (boot 2 0) = some w ∧ w.flat.parent = .loadRsp 1 ∧
      w.flat.rsp = 1 ∧ Lockstep 2 w.flat := by
  have hrun : ∃ w, runSchedule (act 2) staleAnswer (boot 2 0) = some w ∧
      w.flat.parent = .loadRsp 1 ∧ w.flat.rsp = 1 := ⟨_, rfl, rfl, rfl⟩
  obtain ⟨w, hw, hparent, hrsp⟩ := hrun
  refine ⟨w, hw, hparent, hrsp, ?_⟩
  exact (release_acquire_lockstep (by decide) 0).1 w (reachable_of_runSchedule hw)

end ShmRing
